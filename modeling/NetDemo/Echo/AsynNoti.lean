import NetDemo.Foundation.Transition
import Mathlib.Data.List.Nodup
import Mathlib.Logic.Function.Basic

/-! The loop of the event-select echo server over the two arrays of its sockets and events. Every socket
and every event object has a number of its own; 0 is what the arrays are filled with. -/

namespace NetDemo.Echo.AsynNoti
open Foundation

def WSA_MAXIMUM_WAIT_EVENTS : ℕ := 64

def BUF_SIZE : ℕ := 100

/-! ### Compaction -/

/-- `n` rounds of the loop from `i` on; `none` is an access outside of the array. -/
def compressFrom {α : Type} : ℕ → ℕ → List α → Option (List α)
  | 0, _, a => some a
  | n + 1, i, a => (a[i + 1]?).bind fun x => compressFrom n (i + 1) (a.set i x)

def compressSockets (hSockArr : List ℕ) (idx total : ℕ) : Option (List ℕ) :=
  compressFrom (total - idx) idx hSockArr

def compressEvents (hEventArr : List ℕ) (idx total : ℕ) : Option (List ℕ) :=
  compressFrom (total - idx) idx hEventArr

theorem compressFrom_eq {α : Type} {n i : ℕ} {a : List α} (h : i + n < a.length) :
    ∃ a', compressFrom n i a = some a' ∧ a'.length = a.length ∧
      ∀ j, a'[j]? = if i ≤ j ∧ j < i + n then a[j + 1]? else a[j]? := by
  induction n generalizing i a with
  | zero =>
    refine ⟨a, rfl, rfl, fun j => ?_⟩
    rw [if_neg (by omega)]
  | succ n ih =>
    have hlt : i + 1 < a.length := by omega
    obtain ⟨a', ha', hlen, hget⟩ := @ih (i + 1) (a.set i a[i + 1]) (by rw [List.length_set]; omega)
    refine ⟨a', ?_, by rw [hlen, List.length_set], fun j => ?_⟩
    · rw [compressFrom, List.getElem?_eq_getElem hlt, Option.bind_some, ha']
    · rw [hget j]
      by_cases hj : j = i
      · subst hj
        have hlow : ¬ (j + 1 ≤ j ∧ j < j + 1 + n) := by omega
        have hhigh : j ≤ j ∧ j < j + (n + 1) := by omega
        have hin : j < a.length := by omega
        rw [if_neg hlow, if_pos hhigh, List.getElem?_set_self hin, List.getElem?_eq_getElem hlt]
      · have hiff : i + 1 ≤ j ∧ j < i + 1 + n ↔ i ≤ j ∧ j < i + (n + 1) := by omega
        rw [if_congr hiff rfl rfl, List.getElem?_set_ne (Ne.symm hj)]
        split_ifs with hin
        · rw [List.getElem?_set_ne (by omega)]
        · rfl

theorem compressFrom_take {α : Type} {idx total : ℕ} {a : List α} (hidx : idx ≤ total)
    (htotal : total < a.length) :
    ∃ a', compressFrom (total - idx) idx a = some a' ∧ a'.length = a.length ∧
      a'.take total = (a.take (total + 1)).eraseIdx idx := by
  obtain ⟨a', ha', hlen, hget⟩ := compressFrom_eq (show idx + (total - idx) < a.length by omega)
  refine ⟨a', ha', hlen, List.ext_getElem? fun j => ?_⟩
  rw [List.getElem?_take, List.getElem?_eraseIdx, hget j, List.getElem?_take, List.getElem?_take]
  split_ifs <;> first | rfl | omega

/-! ### The loop -/

/-- The bits of `lNetworkEvents`, each with its entry of `iErrorCode`. -/
structure NetworkEvents where
  FD_ACCEPT : Option ℕ
  FD_READ : Option ℕ
  FD_CLOSE : Option ℕ

inductive Mode
  /-- At the top of the outer loop. -/
  | wait
  /-- At the top of the inner loop. -/
  | scan (i : ℕ)
  /-- An array was accessed out of its bounds. -/
  | crashed
  deriving DecidableEq

structure Server where
  hSockArr : List ℕ
  hEventArr : List ℕ
  numofClntSock : ℕ
  mode : Mode
  /-- The event object that `WSAEventSelect` gave to a socket. -/
  selected : ℕ → ℕ
  issued : ℕ
  accepted : List ℕ
  /-- The sockets with an `FD_CLOSE` that was reported. -/
  closed : List ℕ

inductive Event
  /-- The wait for all events finds this one first. -/
  | signaled (posInfo : ℕ)
  /-- The wait for one event finds nothing. -/
  | timeout
  /-- What `WSAEnumNetworkEvents` reports, and how many bytes `recv` writes. -/
  | notify (netEvents : NetworkEvents) (strLen : ℕ)

namespace Server

def hServSock : ℕ := 1

def start : Server where
  hSockArr := (List.replicate WSA_MAXIMUM_WAIT_EVENTS 0).set 0 hServSock
  hEventArr := (List.replicate WSA_MAXIMUM_WAIT_EVENTS 0).set 0 2
  numofClntSock := 1
  mode := .wait
  selected := Function.update (fun _ => 0) hServSock 2
  issued := 3
  accepted := []
  closed := []

def next (s : Server) (i : ℕ) : Server :=
  { s with mode := if i + 1 < s.numofClntSock then .scan (i + 1) else .wait }

/-- What is in `error` does not go on with the notification. An `accept` that fails ends the process. -/
def onAccept (s : Server) (netEvents : NetworkEvents) : Except Server Server :=
  match netEvents.FD_ACCEPT with
  | none => .ok s
  | some 0 =>
    let hClntSock := s.issued
    let newEvent := s.issued + 1
    let s := { s with
      issued := s.issued + 2
      selected := Function.update s.selected hClntSock newEvent
      accepted := s.accepted ++ [hClntSock] }
    -- The code does not compare with the size of its arrays.
    if s.numofClntSock < s.hSockArr.length ∧ s.numofClntSock < s.hEventArr.length then .ok { s with
      hSockArr := s.hSockArr.set s.numofClntSock hClntSock
      hEventArr := s.hEventArr.set s.numofClntSock newEvent
      numofClntSock := s.numofClntSock + 1 }
    else .error { s with mode := .crashed }
  | some _ => .error { s with mode := .wait }

/-- `printf` reads `msg` up to `msg[strLen]`, the first byte that `recv` left zero. -/
def onRead (s : Server) (netEvents : NetworkEvents) (strLen : ℕ) : Except Server Server :=
  match netEvents.FD_READ with
  | none => .ok s
  | some 0 => if strLen < BUF_SIZE then .ok s else .error { s with mode := .crashed }
  | some _ => .error { s with mode := .wait }

def onClose (s : Server) (sigEventIdx : ℕ) (netEvents : NetworkEvents) : Except Server Server :=
  match netEvents.FD_CLOSE with
  | none => .ok s
  | some 0 =>
    let total := s.numofClntSock - 1
    match compressSockets s.hSockArr sigEventIdx total, compressEvents s.hEventArr sigEventIdx total with
    | some hSockArr, some hEventArr => .ok { s with
        hSockArr := hSockArr
        hEventArr := hEventArr
        numofClntSock := total }
    | _, _ => .error { s with mode := .crashed }
  | some _ => .error { s with mode := .wait }

def notify (s : Server) (sigEventIdx : ℕ) (netEvents : NetworkEvents) (strLen : ℕ) : Server :=
  match (s.onAccept netEvents).bind fun s => (s.onRead netEvents strLen).bind fun s =>
    s.onClose sigEventIdx netEvents with
  | .ok s => s.next sigEventIdx
  | .error s => s

/-- Only what `WSAEventSelect` asked for is reported. -/
def Fits (sock : ℕ) (netEvents : NetworkEvents) : Prop :=
  if sock = hServSock then netEvents.FD_READ = none ∧ netEvents.FD_CLOSE = none
  else netEvents.FD_ACCEPT = none

instance (sock : ℕ) (netEvents : NetworkEvents) : Decidable (Fits sock netEvents) := by
  unfold Fits
  infer_instance

def step (s : Server) : Event → Option Server
  | .signaled posInfo =>
    if s.mode = .wait ∧ posInfo < s.numofClntSock then some { s with
      mode := if s.numofClntSock ≤ s.hEventArr.length then .scan posInfo else .crashed }
    else none
  | .timeout =>
    match s.mode with
    | .scan i => some (if i < s.hEventArr.length then s.next i else { s with mode := .crashed })
    | _ => none
  | .notify netEvents strLen =>
    match s.mode with
    | .scan i =>
      match s.hSockArr[i]?, s.hEventArr[i]? with
      | some sock, some _ =>
        if Fits sock netEvents ∧ strLen ≤ BUF_SIZE - 1 then some ({ s with
          closed := if netEvents.FD_CLOSE = none then s.closed else sock :: s.closed }.notify i netEvents
            strLen)
        else none
      | _, _ => some { s with mode := .crashed }
    | _ => none

/-- The entries are the listening socket and the accepted sockets that their peers did not close, in
order, each beside its event. -/
structure Tabled (s : Server) : Prop where
  pos : 1 ≤ s.numofClntSock
  le : s.numofClntSock ≤ WSA_MAXIMUM_WAIT_EVENTS
  sockets : s.hSockArr.take s.numofClntSock = hServSock :: s.accepted.filter (· ∉ s.closed)
  nodup : (s.hSockArr.take s.numofClntSock).Nodup
  events : s.hEventArr.take s.numofClntSock = (s.hSockArr.take s.numofClntSock).map s.selected

/-- No array was accessed out of its bounds, and at the top of the outer loop the table is right. -/
def Sound (s : Server) : Prop := s.mode ≠ .crashed ∧ (s.mode = .wait → s.Tabled)

/-- There is room for what is accepted, and a close is reported without an error, of its own or of a read
along with it. -/
def Roomy (s : Server) : Event → Prop
  | .notify netEvents _ =>
    (netEvents.FD_ACCEPT = some 0 → s.numofClntSock < WSA_MAXIMUM_WAIT_EVENTS) ∧
      (netEvents.FD_CLOSE = none ∨ netEvents.FD_CLOSE = some 0 ∧
        (netEvents.FD_READ = none ∨ netEvents.FD_READ = some 0))
  | _ => True

instance (s : Server) (e : Event) : Decidable (s.Roomy e) := by
  cases e <;> unfold Roomy <;> infer_instance

/-- The table, wherever the loops stand. -/
structure Listed (s : Server) : Prop where
  tabled : s.Tabled
  hSockArr : s.hSockArr.length = WSA_MAXIMUM_WAIT_EVENTS
  hEventArr : s.hEventArr.length = WSA_MAXIMUM_WAIT_EVENTS
  issued : ∀ sock ∈ hServSock :: (s.accepted ++ s.closed), sock < s.issued

structure Inv (s : Server) : Prop extends Listed s where
  mode : s.mode ≠ .crashed
  scan : ∀ i, s.mode = .scan i → i < s.numofClntSock

theorem take_set_end {α : Type} {a : List α} {n : ℕ} (h : n < a.length) (x : α) :
    (a.set n x).take (n + 1) = a.take n ++ [x] := by
  have hn : n < (a.set n x).length := by rwa [List.length_set]
  rw [List.take_succ_eq_append_getElem hn, List.take_set_of_le (Nat.le_refl n), List.getElem_set_self]

theorem eraseIdx_of_nodup {l : List ℕ} (h : l.Nodup) {i x : ℕ} (hx : l[i]? = some x) :
    l.eraseIdx i = l.filter (· ≠ x) := by
  obtain ⟨hi, rfl⟩ := List.getElem?_eq_some_iff.1 hx
  rw [← h.erase_getElem i hi, h.erase_eq_filter]
  exact List.filter_congr fun y _ => by rw [bne, decide_not, beq_eq_decide]

theorem map_eraseIdx {α β : Type} (f : α → β) (l : List α) (i : ℕ) :
    (l.map f).eraseIdx i = (l.eraseIdx i).map f := by
  rw [List.eraseIdx_eq_take_drop_succ, List.eraseIdx_eq_take_drop_succ, List.map_append, List.map_take,
    List.map_drop]

theorem Listed.of_mode {s : Server} (h : s.Listed) (mode : Mode) :
    ({ s with mode := mode } : Server).Listed :=
  ⟨⟨h.tabled.pos, h.tabled.le, h.tabled.sockets, h.tabled.nodup, h.tabled.events⟩, h.hSockArr, h.hEventArr,
    h.issued⟩

theorem Listed.wait {s : Server} (h : s.Listed) : ({ s with mode := .wait } : Server).Inv :=
  ⟨h.of_mode _, nofun, nofun⟩

theorem Listed.next {s : Server} (h : s.Listed) (i : ℕ) : (s.next i).Inv := by
  refine ⟨h.of_mode _, ?_, fun j hj => ?_⟩
  · simp only [Server.next]
    split_ifs <;> exact nofun
  · simp only [Server.next] at hj ⊢
    split_ifs at hj with hlt
    · obtain rfl := Mode.scan.inj hj
      exact hlt

theorem Inv.start : start.Inv where
  tabled := ⟨by decide, by decide, by decide, by decide, by decide⟩
  hSockArr := by decide
  hEventArr := by decide
  issued := by decide
  mode := nofun
  scan := nofun

theorem Listed.entry {s : Server} (h : s.Listed) {i : ℕ} (hi : i < s.numofClntSock) :
    ∃ sock, s.hSockArr[i]? = some sock ∧ s.hEventArr[i]? = some (s.selected sock) ∧
      (s.hSockArr.take s.numofClntSock)[i]? = some sock := by
  have hle := h.tabled.le
  obtain ⟨sock, hsock⟩ : ∃ sock, s.hSockArr[i]? = some sock :=
    ⟨_, List.getElem?_eq_getElem (by rw [h.hSockArr]; omega)⟩
  have htake : (s.hSockArr.take s.numofClntSock)[i]? = some sock := by
    rw [List.getElem?_take_of_lt hi, hsock]
  refine ⟨sock, hsock, ?_, htake⟩
  rw [← List.getElem?_take_of_lt hi, h.tabled.events, List.getElem?_map, htake, Option.map_some]

theorem Listed.onAccept {s : Server} (h : s.Listed) {netEvents : NetworkEvents}
    (haccept : netEvents.FD_ACCEPT = some 0) (hroom : s.numofClntSock < WSA_MAXIMUM_WAIT_EVENTS) :
    ∃ s', s.onAccept netEvents = .ok s' ∧ s'.Listed := by
  have hsocks : s.numofClntSock < s.hSockArr.length := by rw [h.hSockArr]; exact hroom
  have hevents : s.numofClntSock < s.hEventArr.length := by rw [h.hEventArr]; exact hroom
  have hnew : ∀ sock ∈ s.hSockArr.take s.numofClntSock, sock < s.issued := by
    intro sock hsock
    rw [h.tabled.sockets] at hsock
    refine h.issued sock ?_
    rcases List.mem_cons.1 hsock with rfl | hsock
    · exact List.mem_cons_self
    · exact List.mem_cons_of_mem _ (List.mem_append_left _ (List.mem_filter.1 hsock).1)
  have hopen : s.issued ∉ s.closed := fun hmem =>
    Nat.lt_irrefl _ (h.issued _ (List.mem_cons_of_mem _ (List.mem_append_right _ hmem)))
  have hlist : (s.hSockArr.set s.numofClntSock s.issued).take (s.numofClntSock + 1)
      = s.hSockArr.take s.numofClntSock ++ [s.issued] := take_set_end hsocks s.issued
  have hsockets : s.hSockArr.take s.numofClntSock ++ [s.issued]
      = hServSock :: (s.accepted ++ [s.issued]).filter (· ∉ s.closed) := by
    rw [h.tabled.sockets, List.filter_append, List.filter_singleton, decide_eq_true hopen, List.cons_append]
    rfl
  have hnodup : (s.hSockArr.take s.numofClntSock ++ [s.issued]).Nodup := by
    refine List.nodup_append.2 ⟨h.tabled.nodup, by simp, fun x hx y hy => ?_⟩
    rw [List.mem_singleton.1 hy]
    exact Nat.ne_of_lt (hnew x hx)
  have hselected : s.hEventArr.take s.numofClntSock ++ [s.issued + 1]
      = (s.hSockArr.take s.numofClntSock ++ [s.issued]).map
        (Function.update s.selected s.issued (s.issued + 1)) := by
    have hold : (s.hSockArr.take s.numofClntSock).map (Function.update s.selected s.issued (s.issued + 1))
        = (s.hSockArr.take s.numofClntSock).map s.selected :=
      List.map_congr_left fun x hx => Function.update_of_ne (Nat.ne_of_lt (hnew x hx)) _ _
    rw [List.map_append, List.map_singleton, Function.update_self, hold, h.tabled.events]
  unfold Server.onAccept
  rw [haccept]
  dsimp only
  rw [if_pos ⟨hsocks, hevents⟩]
  refine ⟨_, rfl, ⟨Nat.le_add_left _ _, hroom, hlist.trans hsockets, hlist ▸ hnodup, ?_⟩, ?_, ?_, ?_⟩
  · dsimp only
    rw [hlist, take_set_end hevents]
    exact hselected
  · exact (List.length_set ..).trans h.hSockArr
  · exact (List.length_set ..).trans h.hEventArr
  · intro sock hsock
    simp only [List.mem_cons, List.mem_append, List.not_mem_nil, or_false] at hsock
    dsimp only
    rcases hsock with rfl | (hsock | rfl) | hsock
    · exact Nat.lt_add_right 2 (h.issued _ List.mem_cons_self)
    · exact Nat.lt_add_right 2 (h.issued _ (List.mem_cons_of_mem _ (List.mem_append_left _ hsock)))
    · omega
    · exact Nat.lt_add_right 2 (h.issued _ (List.mem_cons_of_mem _ (List.mem_append_right _ hsock)))

theorem onAccept_of_none {netEvents : NetworkEvents} (haccept : netEvents.FD_ACCEPT = none) (s : Server) :
    s.onAccept netEvents = .ok s := by
  unfold Server.onAccept
  rw [haccept]

theorem onRead_of_ok {s : Server} {netEvents : NetworkEvents} {strLen : ℕ} (hlen : strLen ≤ BUF_SIZE - 1)
    (hread : netEvents.FD_READ = none ∨ netEvents.FD_READ = some 0) : s.onRead netEvents strLen = .ok s := by
  unfold Server.onRead
  rcases hread with hread | hread
  · rw [hread]
  · rw [hread]
    exact if_pos (Nat.lt_of_le_of_lt hlen (by decide))

theorem onRead_of_error {s : Server} {netEvents : NetworkEvents} {strLen : ℕ}
    (hread : ¬ (netEvents.FD_READ = none ∨ netEvents.FD_READ = some 0)) :
    s.onRead netEvents strLen = .error { s with mode := .wait } := by
  unfold Server.onRead
  split
  · exact absurd (.inl ‹_›) hread
  · exact absurd (.inr ‹_›) hread
  · rfl

theorem onClose_of_error {s : Server} {i : ℕ} {netEvents : NetworkEvents} (hclose : netEvents.FD_CLOSE ≠ none)
    (hno : netEvents.FD_CLOSE ≠ some 0) : s.onClose i netEvents = .error { s with mode := .wait } := by
  unfold Server.onClose
  cases hcode : netEvents.FD_CLOSE with
  | none => exact absurd hcode hclose
  | some code =>
    cases code with
    | zero => exact absurd hcode hno
    | succ code => rfl

theorem Listed.onClose {s : Server} (h : s.Listed) {i sock : ℕ} (hi : i < s.numofClntSock)
    (hsock : (s.hSockArr.take s.numofClntSock)[i]? = some sock) (hne : sock ≠ hServSock)
    {netEvents : NetworkEvents} (hclose : netEvents.FD_CLOSE = some 0) :
    ∃ s', { s with closed := sock :: s.closed }.onClose i netEvents = .ok s' ∧ s'.Listed := by
  have hle := h.tabled.le
  have hpos := h.tabled.pos
  have hnum : s.numofClntSock - 1 + 1 = s.numofClntSock := by omega
  obtain ⟨socks, hsocks, hslen, hstake⟩ :=
    compressFrom_take (a := s.hSockArr) (show i ≤ s.numofClntSock - 1 by omega)
      (by rw [h.hSockArr]; omega)
  obtain ⟨events, hevents, helen, hetake⟩ :=
    compressFrom_take (a := s.hEventArr) (show i ≤ s.numofClntSock - 1 by omega)
      (by rw [h.hEventArr]; omega)
  rw [hnum] at hstake hetake
  have hlisted : sock ∈ hServSock :: s.accepted.filter (· ∉ s.closed) := by
    rw [← h.tabled.sockets]
    exact List.mem_of_getElem? hsock
  have hmore : 2 ≤ s.numofClntSock := by
    by_contra hone
    obtain rfl : i = 0 := by omega
    rw [h.tabled.sockets] at hsock
    exact hne (Option.some.inj hsock).symm
  have hsockets : (s.hSockArr.take s.numofClntSock).eraseIdx i
      = hServSock :: s.accepted.filter (· ∉ sock :: s.closed) := by
    have hkeep : decide (hServSock ≠ sock) = true := decide_eq_true hne.symm
    rw [eraseIdx_of_nodup h.tabled.nodup hsock, h.tabled.sockets,
      List.filter_cons_of_pos (p := fun x => decide (x ≠ sock)) hkeep, List.filter_filter]
    congr 1
    refine List.filter_congr fun x _ => ?_
    rw [← Bool.decide_and, decide_eq_decide, List.mem_cons, not_or]
  have hselected : (s.hEventArr.take s.numofClntSock).eraseIdx i
      = ((s.hSockArr.take s.numofClntSock).eraseIdx i).map s.selected := by
    rw [h.tabled.events, map_eraseIdx]
  refine ⟨{ s with
    closed := sock :: s.closed
    hSockArr := socks
    hEventArr := events
    numofClntSock := s.numofClntSock - 1 }, ?_, ⟨?_, ?_, ?_, ?_, ?_⟩, ?_, ?_, ?_⟩
  · unfold Server.onClose compressSockets compressEvents
    simp only [hclose, hsocks, hevents]
  · exact Nat.le_sub_of_add_le hmore
  · exact Nat.le_trans (Nat.sub_le _ _) hle
  · exact hstake.trans hsockets
  · exact hstake ▸ h.tabled.nodup.eraseIdx i
  · dsimp only
    rw [hetake, hstake]
    exact hselected
  · exact hslen.trans h.hSockArr
  · exact helen.trans h.hEventArr
  · intro x hx
    simp only [List.mem_cons, List.mem_append] at hx
    rcases hx with rfl | hx | rfl | hx
    · exact h.issued _ List.mem_cons_self
    · exact h.issued _ (List.mem_cons_of_mem _ (List.mem_append_left _ hx))
    · refine h.issued x ?_
      rcases List.mem_cons.1 hlisted with rfl | hx
      · exact List.mem_cons_self
      · exact List.mem_cons_of_mem _ (List.mem_append_left _ (List.mem_filter.1 hx).1)
    · exact h.issued _ (List.mem_cons_of_mem _ (List.mem_append_right _ hx))

theorem Fits.eq_none {sock : ℕ} {netEvents : NetworkEvents} (h : Fits sock netEvents)
    (hclose : netEvents.FD_CLOSE ≠ none) : sock ≠ hServSock ∧ netEvents.FD_ACCEPT = none := by
  unfold Fits at h
  split_ifs at h with hsock
  · exact absurd h.2 hclose
  · exact ⟨hsock, h⟩

theorem Listed.notify {s : Server} (h : s.Listed) {i strLen : ℕ} {netEvents : NetworkEvents}
    (hlen : strLen ≤ BUF_SIZE - 1) (hclose : netEvents.FD_CLOSE = none)
    (hroom : netEvents.FD_ACCEPT = some 0 → s.numofClntSock < WSA_MAXIMUM_WAIT_EVENTS) :
    (s.notify i netEvents strLen).Inv := by
  have hlast (s : Server) : s.onClose i netEvents = .ok s := by unfold Server.onClose; rw [hclose]
  have hread {s : Server} (h : s.Listed) :
      (match (s.onRead netEvents strLen).bind fun s => s.onClose i netEvents with
        | .ok s => s.next i
        | .error s => s).Inv := by
    by_cases hread : netEvents.FD_READ = none ∨ netEvents.FD_READ = some 0
    · rw [onRead_of_ok hlen hread, Except.bind, hlast]
      exact h.next i
    · rw [onRead_of_error hread, Except.bind]
      exact h.wait
  unfold Server.notify
  cases haccept : netEvents.FD_ACCEPT with
  | none =>
    rw [onAccept_of_none haccept]
    exact hread h
  | some code =>
    cases code with
    | zero =>
      obtain ⟨s', hs', h'⟩ := h.onAccept haccept (hroom haccept)
      rw [hs']
      exact hread h'
    | succ code =>
      have hskip : s.onAccept netEvents = .error { s with mode := .wait } := by
        unfold Server.onAccept
        rw [haccept]
        rfl
      rw [hskip]
      exact h.wait

theorem Listed.notify_close {s : Server} (h : s.Listed) {i sock strLen : ℕ} {netEvents : NetworkEvents}
    (hi : i < s.numofClntSock) (hsock : (s.hSockArr.take s.numofClntSock)[i]? = some sock)
    (hfits : Fits sock netEvents) (hlen : strLen ≤ BUF_SIZE - 1) (hclose : netEvents.FD_CLOSE = some 0)
    (hread : netEvents.FD_READ = none ∨ netEvents.FD_READ = some 0) :
    ({ s with closed := sock :: s.closed }.notify i netEvents strLen).Inv := by
  obtain ⟨hne, haccept⟩ := hfits.eq_none (by rw [hclose]; exact nofun)
  obtain ⟨s', hs', h'⟩ := h.onClose hi hsock hne hclose
  unfold Server.notify
  rw [onAccept_of_none haccept, Except.bind, onRead_of_ok hlen hread, Except.bind, hs']
  exact h'.next i

/-- A close that comes with an error stays in the table. -/
theorem not_sound_close {s : Server} {i sock strLen : ℕ} {netEvents : NetworkEvents}
    (hsock : (s.hSockArr.take s.numofClntSock)[i]? = some sock)
    (hfits : Fits sock netEvents) (hlen : strLen ≤ BUF_SIZE - 1) (hclose : netEvents.FD_CLOSE ≠ none)
    (hno : ¬ (netEvents.FD_CLOSE = some 0 ∧ (netEvents.FD_READ = none ∨ netEvents.FD_READ = some 0))) :
    ¬ ({ s with closed := sock :: s.closed }.notify i netEvents strLen).Sound := by
  obtain ⟨hne, haccept⟩ := hfits.eq_none hclose
  have hstop : { s with closed := sock :: s.closed }.notify i netEvents strLen
      = { s with closed := sock :: s.closed, mode := .wait } := by
    unfold Server.notify
    rw [onAccept_of_none haccept, Except.bind]
    by_cases hread : netEvents.FD_READ = none ∨ netEvents.FD_READ = some 0
    · rw [onRead_of_ok hlen hread, Except.bind]
      rw [onClose_of_error hclose fun hzero => hno ⟨hzero, hread⟩]
    · rw [onRead_of_error hread, Except.bind]
  rw [hstop]
  rintro ⟨-, htabled⟩
  have hlisted : sock ∈ hServSock :: s.accepted.filter (· ∉ sock :: s.closed) := by
    rw [← (htabled rfl).sockets]
    exact List.mem_of_getElem? hsock
  rcases List.mem_cons.1 hlisted with rfl | hmem
  · exact hne rfl
  · have hgone := (List.mem_filter.1 hmem).2
    simp at hgone

/-- A socket that is accepted into a full table is written behind it. -/
theorem Listed.not_sound_accept {s : Server} (h : s.Listed) {i strLen : ℕ} {netEvents : NetworkEvents}
    (haccept : netEvents.FD_ACCEPT = some 0) (hfull : ¬ s.numofClntSock < WSA_MAXIMUM_WAIT_EVENTS) :
    ¬ (s.notify i netEvents strLen).Sound := by
  have hsocks : ¬ (s.numofClntSock < s.hSockArr.length ∧ s.numofClntSock < s.hEventArr.length) := by
    rw [h.hSockArr, h.hEventArr]
    exact fun hlt => hfull hlt.1
  unfold Server.notify Server.onAccept
  rw [haccept]
  dsimp only
  rw [if_neg hsocks]
  exact fun hsound => hsound.1 rfl

theorem Inv.step_notify {s s' : Server} (h : s.Inv) {netEvents : NetworkEvents} {strLen : ℕ}
    (hs : s.step (.notify netEvents strLen) = some s') :
    ∃ i sock, i < s.numofClntSock ∧ (s.hSockArr.take s.numofClntSock)[i]? = some sock ∧ Fits sock netEvents ∧
      strLen ≤ BUF_SIZE - 1 ∧ s' = { s with
        closed := if netEvents.FD_CLOSE = none then s.closed else sock :: s.closed }.notify i netEvents
          strLen := by
  cases hmode : s.mode with
  | wait | crashed => simp [step, hmode] at hs
  | scan i =>
    have hi := h.scan i hmode
    obtain ⟨sock, hsock, hevent, htake⟩ := h.entry hi
    simp only [step, hmode, hsock, hevent, Option.ite_none_right_eq_some, Option.some.injEq] at hs
    obtain ⟨⟨hfits, hlen⟩, rfl⟩ := hs
    exact ⟨i, sock, hi, htake, hfits, hlen, rfl⟩

theorem Inv.step {s s' : Server} {e : Event} (h : s.Inv) (hroomy : s.Roomy e) (hs : s.step e = some s') :
    s'.Inv := by
  cases e with
  | signaled posInfo =>
    simp only [Server.step, Option.ite_none_right_eq_some, Option.some.injEq] at hs
    obtain ⟨⟨-, hlt⟩, rfl⟩ := hs
    rw [if_pos (h.hEventArr ▸ h.tabled.le)]
    refine ⟨h.of_mode _, nofun, fun i hi => ?_⟩
    obtain rfl := Mode.scan.inj hi
    exact hlt
  | timeout =>
    cases hmode : s.mode with
    | wait | crashed => simp [Server.step, hmode] at hs
    | scan i =>
      have hle := h.tabled.le
      have hlt : i < s.hEventArr.length := by
        rw [h.hEventArr]
        exact Nat.lt_of_lt_of_le (h.scan i hmode) hle
      simp only [Server.step, hmode, if_pos hlt, Option.some.injEq] at hs
      exact hs ▸ h.next i
  | notify netEvents strLen =>
    obtain ⟨i, sock, hi, hsock, hfits, hlen, rfl⟩ := h.step_notify hs
    obtain ⟨hroom, hclose⟩ := hroomy
    rcases hclose with hclose | ⟨hclose, hread⟩
    · rw [if_pos hclose]
      exact h.notify hlen hclose hroom
    · rw [if_neg (by rw [hclose]; exact nofun)]
      exact h.notify_close hi hsock hfits hlen hclose hread

theorem Inv.not_sound {s s' : Server} {e : Event} (h : s.Inv) (hno : ¬ s.Roomy e) (hs : s.step e = some s') :
    ¬ s'.Sound := by
  cases e with
  | signaled posInfo => exact absurd trivial hno
  | timeout => exact absurd trivial hno
  | notify netEvents strLen =>
    obtain ⟨i, sock, hi, hsock, hfits, hlen, rfl⟩ := h.step_notify hs
    by_cases hclose : netEvents.FD_CLOSE = none
    · rw [if_pos hclose]
      have hfull : ¬ (netEvents.FD_ACCEPT = some 0 → s.numofClntSock < WSA_MAXIMUM_WAIT_EVENTS) :=
        fun hroom => hno ⟨hroom, .inl hclose⟩
      obtain ⟨haccept, hfull⟩ := Classical.not_imp.1 hfull
      exact h.not_sound_accept haccept hfull
    · rw [if_neg hclose]
      refine not_sound_close hsock hfits hlen hclose fun hzero => hno ⟨?_, .inr hzero⟩
      rw [(hfits.eq_none hclose).2]
      exact nofun

/-- The loop keeps its table and stays inside of its arrays in exactly the runs in which a free entry is
left for whatever is accepted, and no close comes with an error of its own or of a read. -/
theorem sound_iff_roomy {es : List Event} {s : Server} (hrun : run step start es = some s) :
    Always step Sound start es ↔ Meets step Roomy start es :=
  always_iff_meets_of_run Inv (fun _ h => ⟨h.mode, fun _ => h.tabled⟩) (fun _ _ _ => Inv.step)
    (fun _ _ _ => Inv.not_sound) Inv.start hrun

def connect (n : ℕ) : List Event :=
  .signaled 0 :: .notify ⟨some 0, none, none⟩ 0 :: List.replicate n .timeout

/-- Of two clients the first sends five bytes and closes. -/
theorem sound_iff_roomy_close :
    ∃ s, run step start (connect 1 ++ connect 2 ++ [.signaled 1, .notify ⟨none, some 0, some 0⟩ 5]) = some s ∧
      s.hSockArr.take s.numofClntSock = [1, 5] ∧ s.hEventArr.take s.numofClntSock = [2, 6] ∧
      Always step Sound start (connect 1 ++ connect 2 ++ [.signaled 1, .notify ⟨none, some 0, some 0⟩ 5]) := by
  have hmeets : Meets step Roomy start
      (connect 1 ++ connect 2 ++ [.signaled 1, .notify ⟨none, some 0, some 0⟩ 5]) := by decide
  exact ⟨_, rfl, by decide, by decide, (sound_iff_roomy rfl).2 hmeets⟩

/-- The connection of a client is aborted, and its socket stays in the table. -/
theorem not_sound_abort :
    ¬ ∀ es s, run step start es = some s → Always step Sound start es := by
  intro h
  have hsound := (h (connect 1 ++ [.signaled 1, .notify ⟨none, none, some 10053⟩ 0]) _ rfl).end_of_run rfl
  have hlisted : [1, 3] = [hServSock] := (hsound.2 rfl).sockets
  exact absurd hlisted (by decide)

end Server
end NetDemo.Echo.AsynNoti
