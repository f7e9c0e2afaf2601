import NetDemo.Server.Shutdown

/-! `IocpServer::shutdown`, which cancels what is in flight, between the other calls of a server's life. -/

namespace NetDemo.Server
open Foundation

namespace Lifecycle

/-- Which calls of `CancelIoEx` succeed: the one for the listen socket, and those for the accepts. -/
structure Cancelling where
  listen : Bool
  accepts : ℕ → Bool

/-- There is nothing to cancel for an accept that is not in flight. -/
def Cancelling.finds (o : Cancelling) (p : AcceptIoContext × ℕ) : Bool := p.1.pending && o.accepts p.2

/-- The sockets of the contexts that `shutdown` closes, or that it only drops from the list. -/
def cancelled (list : List AcceptIoContext) (o : Cancelling) : List ℕ :=
  sockets ((list.zipIdx.filter o.finds).map Prod.fst)

def dropped (list : List AcceptIoContext) (o : Cancelling) : List ℕ :=
  sockets ((list.zipIdx.filter fun p => !o.finds p).map Prod.fst)

/-- `shutdown` behind the `CancelIoEx` for the listen socket. -/
def closeAccepts (s : Lifecycle) (m_socket : ℕ) (o : Cancelling) : Lifecycle := { s with
  m_pListenCtx := some none
  closed := s.closed ++ m_socket :: cancelled s.m_acceptIoCtxList o
  m_acceptIoCtxList := [] }

/-- `none` where `m_pListenCtx` is null. No `CancelIoEx` succeeds for `INVALID_SOCKET`. -/
def shutdown (s : Lifecycle) (o : Cancelling) : Option Lifecycle :=
  match s.m_pListenCtx with
  | none => none
  | some none => some s
  | some (some m_socket) => some (if o.listen then s.closeAccepts m_socket o else s)

inductive Event
  | call (call : Call)
  | shutdown (o : Cancelling)

def follow (s : Lifecycle) : Event → Option Lifecycle
  | .call call => s.step call
  | .shutdown o => s.shutdown o

/-- `shutdown` gives up at the listen socket, or it drops no socket. -/
def Gentle (s : Lifecycle) : Event → Prop
  | .call call => s.Careful call
  | .shutdown o => s.m_pListenCtx.join.isSome → o.listen → dropped s.m_acceptIoCtxList o = []

instance (s : Lifecycle) : DecidablePred s.Gentle
  | .call call => inferInstanceAs (Decidable (s.Careful call))
  | .shutdown _ => inferInstanceAs (Decidable (_ → _ → _))

variable {s s' : Lifecycle} {o : Cancelling}

theorem count_cancelled_add (list : List AcceptIoContext) (o : Cancelling) (handle : ℕ) :
    (cancelled list o).count handle + (dropped list o).count handle = (sockets list).count handle := by
  have hsplit (l : List (AcceptIoContext × ℕ)) :
      (sockets ((l.filter o.finds).map Prod.fst)).count handle +
        (sockets ((l.filter fun p => !o.finds p).map Prod.fst)).count handle =
      (sockets (l.map Prod.fst)).count handle := by
    rw [← List.count_append]
    unfold sockets
    rw [← List.filterMap_append, ← List.map_append]
    exact (((List.filter_append_perm o.finds l).map Prod.fst).filterMap _).count_eq handle
  have hthis := hsplit list.zipIdx
  rwa [List.zipIdx_map_fst] at hthis

/-- A step closes some of the handles that the server knows, and forgets others. -/
structure Drops (s s' : Lifecycle) (closing losing : List ℕ) : Prop where
  issued : s'.issued = s.issued
  closed : s'.closed = s.closed ++ closing
  late : s'.late = s.late
  workers : s'.m_hWorkerThreads = s.m_hWorkerThreads
  write : s'.m_hWriteCompletedEvent = s.m_hWriteCompletedEvent
  held : ∀ handle, s'.held handle + closing.count handle + losing.count handle = s.held handle
  firm : ∀ handle, s'.firm handle ≤ s.firm handle

theorem Drops.refl (s : Lifecycle) : Drops s s [] [] :=
  ⟨rfl, (List.append_nil _).symm, rfl, rfl, rfl, fun _ => rfl, fun _ => le_rfl⟩

theorem drops_closeAccepts {socket : ℕ} (h : s.m_pListenCtx = some (some socket)) (o : Cancelling) :
    Drops s (s.closeAccepts socket o) (socket :: cancelled s.m_acceptIoCtxList o)
      (dropped s.m_acceptIoCtxList o) := by
  refine ⟨rfl, rfl, rfl, rfl, rfl, fun handle => ?_, fun handle => ?_⟩
  · have hcount := count_cancelled_add s.m_acceptIoCtxList o handle
    have hcons : (socket :: cancelled s.m_acceptIoCtxList o).count handle =
        (some socket).toList.count handle + (cancelled s.m_acceptIoCtxList o).count handle :=
      @List.count_append _ _ handle [socket] _
    rw [hcons, held, held, Lifecycle.firm, Lifecycle.firm, h]
    simp only [closeAccepts, sockets, List.filterMap_nil, List.count_nil, Option.join_some,
      Option.toList_none] at hcount ⊢
    omega
  · simp only [Lifecycle.firm, closeAccepts, sockets, List.filterMap_nil, List.count_nil]
    omega

theorem shutdown_cases (h : s.shutdown o = some s') :
    (s' = s ∧ s.Gentle (.shutdown o)) ∨
      ∃ socket, s.m_pListenCtx = some (some socket) ∧ o.listen = true ∧ s' = s.closeAccepts socket o := by
  unfold shutdown at h
  split at h
  · cases h
  · next hlisten =>
    exact .inl ⟨(Option.some.inj h).symm, by simp [Gentle, hlisten]⟩
  · next socket hlisten =>
    obtain rfl := Option.some.inj h
    cases hok : o.listen with
    | false => exact .inl ⟨by simp, by simp [Gentle, hok]⟩
    | true => exact .inr ⟨socket, hlisten, rfl, by simp⟩

/-- Whether it gets there or not, `shutdown` forgets nothing if and only if it is gentle. -/
theorem shutdown_drops (h : s.shutdown o = some s') :
    ∃ closing losing, Drops s s' closing losing ∧ (s.Gentle (.shutdown o) ↔ losing = []) := by
  obtain ⟨rfl, hgentle⟩ | ⟨socket, hlisten, hok, rfl⟩ := shutdown_cases h
  · exact ⟨[], [], .refl s', iff_of_true hgentle rfl⟩
  · exact ⟨_, _, drops_closeAccepts hlisten o, by simp [Gentle, hlisten, hok]⟩

section
variable {closing losing : List ℕ}

theorem Drops.count_closed (h : Drops s s' closing losing) (handle : ℕ) :
    s'.closed.count handle = s.closed.count handle + closing.count handle := by
  rw [h.closed, List.count_append]

theorem Drops.grows (h : Drops s s' closing losing) (hv : Valid s) : Grows s s' where
  issued := h.issued.ge
  closed handle := by
    rw [h.count_closed]
    exact Nat.le_add_right ..
  closing handle := by
    have hheld := h.held handle
    rw [h.count_closed]
    omega
  workers _ := by rw [h.workers]
  held handle := by
    have hheld := h.held handle
    omega
  firm handle := (h.firm handle).trans (Nat.le_add_right ..)
  gone handle hlt := by
    have hheld := h.held handle
    have hone := hv.once handle
    have hle := firm_le_held s' handle
    rw [h.count_closed] at hlt
    omega
  write := h.write

theorem Drops.keeps (h : Drops s s' closing []) : Keeps s s' where
  balance handle := by
    have hheld := h.held handle
    rw [List.count_nil, Nat.add_zero] at hheld
    rw [h.count_closed, fresh_of_issued h.issued]
    omega
  late := h.late

theorem Drops.damaged (h : Drops s s' closing losing) (hv : Valid s) (hs : Sound s) {handle : ℕ}
    (hmem : handle ∈ losing) : Damaged s' := by
  have hlost : 0 < losing.count handle := List.count_pos_iff.mpr hmem
  have hheld := h.held handle
  have hone := hv.once handle
  have hlt : handle < s.issued := hv.lt_of_held (by omega)
  have hopen : s.closed.count handle = 0 := hs.closed_of_held hv (by omega)
  refine .lost handle (by rw [h.issued]; exact hlt) ?_ (by omega)
  rw [h.count_closed]
  omega

end

theorem HalfClosed.shutdown {socket port : ℕ} (hc : HalfClosed s socket port) (h : s.shutdown o = some s') :
    Doomed s' := by
  obtain ⟨rfl, -⟩ | ⟨socket', hlisten, -, rfl⟩ := shutdown_cases h
  · exact .inr ⟨socket, port, hc⟩
  · have hjoin := hc.listen
    rw [hlisten, Option.join_some] at hjoin
    obtain rfl := Option.some.inj hjoin
    refine .inl (.twice socket' ?_)
    have hclosed := hc.closed
    have htwice : (s.closed ++ socket' :: cancelled s.m_acceptIoCtxList o).count socket' =
        s.closed.count socket' + ((cancelled s.m_acceptIoCtxList o).count socket' + 1) := by
      rw [List.count_append, List.count_cons_self]
    simp only [closeAccepts, htwice]
    omega

/-! ### Runs -/

theorem Valid.follow {e : Event} (hv : Valid s) (h : follow s e = some s') : Valid s' := by
  cases e with
  | call call => exact hv.of_step h
  | shutdown o =>
    obtain ⟨closing, losing, hd, -⟩ := shutdown_drops h
    exact hv.grows (hd.grows hv)

theorem m_hWriteCompletedEvent_follow {e : Event} (hv : Valid s) (h : follow s e = some s') :
    s'.m_hWriteCompletedEvent = s.m_hWriteCompletedEvent := by
  cases e with
  | call call => exact m_hWriteCompletedEvent_step hv h
  | shutdown o =>
    obtain ⟨closing, losing, hd, -⟩ := shutdown_drops h
    exact hd.write

theorem Sound.follow {e : Event} (hs : Sound s) (hv : Valid s) (hgentle : s.Gentle e)
    (h : follow s e = some s') : Sound s' := by
  cases e with
  | call call => exact hs.of_step hv hgentle h
  | shutdown o =>
    obtain ⟨closing, losing, hd, hiff⟩ := shutdown_drops h
    obtain rfl := hiff.mp hgentle
    exact hs.keeps hv hd.keeps

theorem Sound.doomed_of_follow {e : Event} (hs : Sound s) (hv : Valid s) (hno : ¬ s.Gentle e)
    (h : Lifecycle.follow s e = some s') : Doomed s' := by
  cases e with
  | call call => exact hs.doomed_of_step hv hno h
  | shutdown o =>
    obtain ⟨closing, losing, hd, hiff⟩ := shutdown_drops h
    obtain ⟨handle, hmem⟩ := List.exists_mem_of_ne_nil _ (mt hiff.mpr hno)
    exact .inl (hd.damaged hv hs hmem)

theorem Doomed.follow {e : Event} (hd : Doomed s) (hv : Valid s) (h : Lifecycle.follow s e = some s') :
    Doomed s' := by
  cases e with
  | call call => exact hd.of_step hv h
  | shutdown o =>
    rcases hd with hd | ⟨socket, port, hc⟩
    · obtain ⟨closing, losing, hdrops, -⟩ := shutdown_drops h
      exact .inl (hd.grows (hdrops.grows hv))
    · exact hc.shutdown h

end Lifecycle
end NetDemo.Server
