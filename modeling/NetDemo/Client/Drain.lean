import NetDemo.Client.Fifo

/-! The output of one client whose socket stays open and whose posts succeed, with messages of any length.
Here no bytes transferred, and none in `m_outBuf`, stand for something else. -/

namespace NetDemo.Client
open Foundation Memory Http

structure Outbox where
  client : ClientContext UInt8
  /-- How many completed sends went to `handleClose`. -/
  mistaken : ℕ

inductive Sending
  | call (pData : Bytes) (hlen : pData.length < 2 ^ 32)
  /-- The completion of the `j`th send in flight. -/
  | completed (j dwBytesTransferred : ℕ)

def Sending.isCompletion : Sending → Bool
  | .call .. => false
  | .completed .. => true

namespace Outbox

/-- A send without bytes completes without bytes, and no other one does. `IocpWorkerThread` takes every
completion without bytes for a close of the peer. One that cannot arrive changes nothing. -/
def step (o : Outbox) : Sending → Option Outbox
  | .call pData _ => (o.client.send pData).map fun r => { o with client := r.2 }
  | .completed j dwBytesTransferred =>
    match o.client.sends[j]? with
    | none => some o
    | some op =>
      if dwBytesTransferred ≤ op.len ∧ (dwBytesTransferred = 0 ↔ op.len = 0) then
        let client := { o.client with sends := o.client.sends.eraseIdx j }
        if 0 = dwBytesTransferred then some ⟨client.modify Link.handleClose, o.mistaken + 1⟩
        else (client.handleSend dwBytesTransferred).map fun client => { o with client := client }
      else some o

/-- At most one send is in flight. When none is, nothing is left to send and the counter is back at
`base`, what it is without a send. -/
structure Drains (base : ℕ) (o : Outbox) : Prop where
  single : o.client.sends.length ≤ 1
  drained : o.client.sends = [] → o.client.m_outBufQueue = [] ∧ o.client.link.m_nPendingIoCnt = base
  noClose : o.mistaken = 0

/-- A message is not empty, finds `m_outBuf` empty, and is not too long to be rounded up. -/
def FindsRoom (o : Outbox) : Sending → Prop
  | .call pData _ => 0 < pData.length ∧ pData.length ≤ 2 ^ 32 - 1024 ∧ o.client.m_outBuf.getBufferLen = 0
  | .completed _ _ => True

instance (o : Outbox) : DecidablePred o.FindsRoom
  | .call pData _ => inferInstanceAs (Decidable (0 < pData.length ∧ pData.length ≤ 2 ^ 32 - 1024 ∧
      o.client.m_outBuf.getBufferLen = 0))
  | .completed _ _ => .isTrue trivial

/-- The client before any send: its counter is what the receive and the handlers account for. -/
structure Fresh (base : ℕ) (o : Outbox) : Prop where
  holds : ∃ x, Holds none o.client x
  socket : o.client.link.m_socket = true
  net : ∀ k, o.client.link.net k = true
  sends : o.client.sends = []
  outLen : o.client.m_outBuf.getBufferLen = 0
  queue : o.client.m_outBufQueue = []
  count : o.client.link.m_nPendingIoCnt = base
  base_lt : base + 1 < 2 ^ 32
  noClose : o.mistaken = 0

/-! ### Messages with room -/

/-- An open client, of which `x` is a view. -/
structure Opened (o : Outbox) (x : View UInt8) : Prop where
  holds : Holds none o.client x
  socket : x.link.m_socket = true
  net : ∀ k, x.link.net k = true

/-- The send in flight is all of `m_outBuf`, and nothing is queued. -/
structure Flowing (base : ℕ) (o : Outbox) (x : View UInt8) : Prop where
  opened : Opened o x
  queue : x.queue = []
  sends : x.sends = if x.out = [] then [] else [x.out]
  count : x.link.m_nPendingIoCnt = if x.out = [] then base else base + 1
  noClose : o.mistaken = 0

theorem Fresh.flowing {base : ℕ} {o : Outbox} (h : Fresh base o) : ∃ x, Flowing base o x := by
  obtain ⟨x, hx⟩ := h.holds
  have hout : x.out = [] := hx.out_eq_nil.mp h.outLen.symm
  have hsends := hx.sends
  have hqueue := hx.queue
  rw [h.sends, List.map_nil] at hsends
  rw [h.queue, List.forall₂_nil_left_iff] at hqueue
  refine ⟨x, ⟨hx, hx.link ▸ h.socket, hx.link ▸ h.net⟩, hqueue, ?_, ?_, h.noClose⟩
  · rw [if_pos hout, hsends]
  · rw [if_pos hout, ← hx.link, h.count]

theorem Flowing.drains {base : ℕ} {o : Outbox} {x : View UInt8} (h : Flowing base o x) : Drains base o := by
  have hx := h.opened.holds
  have hsends := hx.sends
  have hqueue := hx.queue
  rw [h.queue, List.forall₂_nil_right_iff] at hqueue
  rw [h.sends] at hsends
  have hlen := congrArg List.length hsends
  rw [List.length_map] at hlen
  refine ⟨?_, fun hnil => ⟨hqueue, ?_⟩, h.noClose⟩
  · rw [hlen]
    split_ifs <;> simp
  · rw [hx.link, h.count]
    by_cases hout : x.out = []
    · rw [if_pos hout]
    · rw [hnil, if_neg hout] at hsends
      cases hsends

theorem Opened.send_idle {o : Outbox} {x : View UInt8} (h : Opened o x) (hout : x.out = []) {pData : Bytes}
    (hlen : pData.length < 2 ^ 32) (hroom : pData.length ≤ 2 ^ 32 - 1024) :
    ∃ o' x', step o (.call pData hlen) = some o' ∧ Opened o' x' ∧ x'.out = pData ∧ x'.queue = x.queue ∧
      x'.sends = x.sends ++ [pData] ∧
      x'.link.m_nPendingIoCnt = (x.link.m_nPendingIoCnt + 1) % 2 ^ 32 ∧ o'.mistaken = o.mistaken := by
  obtain ⟨s', e, hx', -⟩ := h.holds.send pData hroom
  have hpost := View.postSend_open (x := { (x.modify fun l => l.note (.send pData)).modify
      Link.enterIoLoop with out := pData }) h.socket h.net
  rw [View.sent_idle hout, View.firstSend, hpost] at hx'
  refine ⟨{ o with client := s' }, _, ?_, ⟨hx', h.socket, fun k => h.net (k + 1)⟩, rfl, rfl, rfl, rfl, rfl⟩
  rw [step, e]
  rfl

theorem Opened.send_busy {o : Outbox} {x : View UInt8} (h : Opened o x) (hout : x.out ≠ []) {pData : Bytes}
    (hlen : pData.length < 2 ^ 32) (hroom : pData.length ≤ 2 ^ 32 - 1024) :
    ∃ o' x', step o (.call pData hlen) = some o' ∧ Opened o' x' ∧ x'.out = x.out ∧
      x'.queue = x.queue ++ [pData] ∧ x'.sends = x.sends ∧
      x'.link.m_nPendingIoCnt = x.link.m_nPendingIoCnt ∧ o'.mistaken = o.mistaken := by
  obtain ⟨s', e, hx', -⟩ := h.holds.send pData hroom
  rw [View.sent_busy hout] at hx'
  refine ⟨{ o with client := s' }, _, ?_, ⟨hx', h.socket, h.net⟩, rfl, rfl, rfl, rfl, rfl⟩
  rw [step, e]
  rfl

theorem Opened.inFlight {o : Outbox} {x : View UInt8} (h : Opened o x) (hsends : x.sends = [x.out]) :
    ∃ op, o.client.sends = [op] ∧ op.len = x.out.length ∧ op.len ≤ o.client.m_outBuf.m_nSize := by
  have hmap := h.holds.sends
  rw [hsends, List.map_eq_singleton_iff] at hmap
  obtain ⟨op, hs, hop⟩ := hmap
  have hmem : op ∈ o.client.sends := by rw [hs]; exact List.mem_singleton.mpr rfl
  exact ⟨op, hs, (h.holds.whole op hmem).trans (congrArg List.length hop), h.holds.room op hmem⟩

theorem Opened.completed {o : Outbox} {x : View UInt8} (h : Opened o x) (hsends : x.sends = [x.out]) {n : ℕ}
    (hn : 0 < n) (hle : n ≤ x.out.length) :
    Option.Rel (fun o' x' => Holds none o'.client x' ∧ o'.mistaken = o.mistaken) (step o (.completed 0 n))
      (({ x with sends := [] } : View UInt8).handleSend n) := by
  obtain ⟨op, hs, hwhole, hroom⟩ := h.inFlight hsends
  have hfits : n ≤ op.len ∧ (n = 0 ↔ op.len = 0) := by omega
  simp only [step, hs, List.getElem?_cons_zero, List.eraseIdx_cons_zero, if_pos hfits, if_neg hn.ne]
  exact rel_map_left ((h.holds.popSend hs).handleSend ((hle.trans_eq hwhole.symm).trans hroom))
    fun s' x' hx' => ⟨hx'.1, rfl⟩

theorem Opened.completed_empty {o : Outbox} {x : View UInt8} (h : Opened o x) (hsends : x.sends = [x.out])
    (hout : x.out = []) : ∃ client, step o (.completed 0 0) = some ⟨client, o.mistaken + 1⟩ := by
  obtain ⟨op, hs, hwhole, -⟩ := h.inFlight hsends
  have hlen : op.len = 0 := by rw [hwhole, hout, List.length_nil]
  exact ⟨({ o.client with sends := [] } : ClientContext UInt8).modify Link.handleClose, by simp [step, hs, hlen]⟩

theorem Opened.completed_not {o : Outbox} {x : View UInt8} (h : Opened o x) (hsends : x.sends = [x.out])
    {j n : ℕ} (hno : ¬ (j = 0 ∧ n ≤ x.out.length ∧ (n = 0 ↔ x.out.length = 0))) :
    step o (.completed j n) = some o := by
  obtain ⟨op, hs, hwhole, -⟩ := h.inFlight hsends
  cases j with
  | succ j => simp [step, hs]
  | zero =>
    have hfits : ¬ (n ≤ op.len ∧ (n = 0 ↔ op.len = 0)) := fun hfits => hno ⟨rfl, by rwa [hwhole] at hfits⟩
    simp only [step, hs, List.getElem?_cons_zero, if_neg hfits]

theorem releaseClientContext_count {α : Type} {l : Link α} {base : ℕ} (h : l.m_nPendingIoCnt = base + 1) :
    l.releaseClientContext.m_nPendingIoCnt = base := by
  have hpos : ¬ base + 1 = 0 := Nat.succ_ne_zero base
  simp only [Link.releaseClientContext, Link.exitIoLoop, Link.removeClient, h, if_neg hpos]
  split_ifs <;> rfl

theorem Flowing.step {base : ℕ} {o : Outbox} {x : View UInt8} (h : Flowing base o x) (hbase : base + 1 < 2 ^ 32)
    {e : Sending} (hok : FindsRoom o e) : ∃ o', step o e = some o' ∧ ∃ x', Flowing base o' x' := by
  have hx := h.opened.holds
  cases e with
  | call pData hlen =>
    obtain ⟨hpos, hroom, hlen0⟩ := hok
    have hout : x.out = [] := hx.out_eq_nil.mp hlen0.symm
    have hne : pData ≠ [] := List.ne_nil_of_length_pos hpos
    have hsends := h.sends
    have hcount := h.count
    rw [if_pos hout] at hsends hcount
    obtain ⟨o', x', e, hopened, hout', hqueue', hsends', hcount', hmistaken⟩ :=
      h.opened.send_idle hout hlen hroom
    refine ⟨o', e, x', hopened, hqueue'.trans h.queue, ?_, ?_, hmistaken.trans h.noClose⟩
    · rw [hsends', hsends, hout', if_neg hne, List.nil_append]
    · rw [hcount', hcount, hout', if_neg hne, Nat.mod_eq_of_lt hbase]
  | completed j n =>
    have hsends := h.sends
    have hcount := h.count
    by_cases hout : x.out = []
    · -- Nothing is in flight, so no completion arrives.
      have hnil := hx.sends
      rw [hsends, if_pos hout, List.map_eq_nil_iff] at hnil
      exact ⟨o, by simp [Outbox.step, hnil], x, h⟩
    rw [if_neg hout] at hsends hcount
    by_cases harrives : j = 0 ∧ n ≤ x.out.length ∧ (n = 0 ↔ x.out.length = 0)
    swap
    · exact ⟨o, h.opened.completed_not hsends harrives, x, h⟩
    obtain ⟨rfl, hle, hzero⟩ := harrives
    have hlen : 0 < x.out.length := List.length_pos_of_ne_nil hout
    obtain ⟨x', e, hsocket, hnet, hqueue, hsends', -, -, -, hcount'⟩ :=
      View.handleSend_open (x := { x with sends := [] }) h.opened.socket h.opened.net h.queue rfl n
    have hrel := h.opened.completed hsends (by omega : 0 < n) hle
    rw [e] at hrel
    obtain ⟨o', e', hx', hmistaken⟩ := rel_some_right hrel
    refine ⟨o', e', x', ⟨hx', hsocket, hnet⟩, hqueue, hsends', ?_, hmistaken.trans h.noClose⟩
    rw [hcount']
    split_ifs
    · exact releaseClientContext_count hcount
    · exact hcount

/-! ### Messages without room -/

/-- One send is in flight, and either it is empty or something is queued behind it. -/
structure Stuck (base : ℕ) (o : Outbox) (x : View UInt8) : Prop where
  opened : Opened o x
  sends : x.sends = [x.out]
  count : x.link.m_nPendingIoCnt = base + 1
  behind : x.out = [] ∨ x.queue ≠ []

theorem Flowing.stuck {base : ℕ} {o o' : Outbox} {x : View UInt8} (h : Flowing base o x)
    (hbase : base + 1 < 2 ^ 32) {e : Sending} (hno : ¬ FindsRoom o e) (hs' : Outbox.step o e = some o') :
    ∃ x', Stuck base o' x' := by
  cases e with
  | completed j n => exact absurd trivial hno
  | call pData hlen =>
    have hsends := h.sends
    have hcount := h.count
    by_cases hroom : pData.length ≤ 2 ^ 32 - 1024
    swap
    · rw [Outbox.step, Holds.send_fault o.client hlen (by omega)] at hs'
      cases hs'
    by_cases hout : x.out = []
    · rw [if_pos hout] at hsends hcount
      have hempty : pData = [] := by
        by_contra hne
        exact hno ⟨List.length_pos_of_ne_nil hne, hroom, (h.opened.holds.out_eq_nil.mpr hout).symm⟩
      obtain ⟨o₁, x', e, hopened, hout', -, hsends', hcount', -⟩ :=
        h.opened.send_idle hout hlen hroom
      obtain rfl := Option.some.inj (e.symm.trans hs')
      refine ⟨x', hopened, ?_, ?_, .inl (hout'.trans hempty)⟩
      · rw [hsends', hsends, hout', List.nil_append]
      · rw [hcount', hcount, Nat.mod_eq_of_lt hbase]
    · rw [if_neg hout] at hsends hcount
      obtain ⟨o₁, x', e, hopened, hout', hqueue', hsends', hcount', -⟩ :=
        h.opened.send_busy hout hlen hroom
      obtain rfl := Option.some.inj (e.symm.trans hs')
      refine ⟨x', hopened, ?_, hcount'.trans hcount, .inr ?_⟩
      · rw [hsends', hsends, hout']
      · rw [hqueue']
        exact List.append_ne_nil_of_right_ne_nil _ (List.cons_ne_nil _ _)

/-- When all that is in flight went out, the next message is empty, or its block is gone. -/
theorem Stuck.not_drains {base : ℕ} {o o' : Outbox} {x : View UInt8} (h : Stuck base o x)
    (hs' : Outbox.step o (.completed 0 x.out.length) = some o') : ¬ Drains base o' := by
  intro hdrains
  by_cases hout : x.out = []
  · obtain ⟨client, e⟩ := h.opened.completed_empty h.sends hout
    rw [hout, List.length_nil, e] at hs'
    obtain rfl := Option.some.inj hs'
    exact absurd hdrains.noClose (Nat.succ_ne_zero _)
  obtain ⟨front, rest, hqueue⟩ := List.exists_cons_of_ne_nil (h.behind.resolve_left hout)
  have hrel := h.opened.completed h.sends (List.length_pos_of_ne_nil hout) le_rfl
  rw [View.handleSend_done (by simp), hs'] at hrel
  obtain ⟨x', hx', hholds, -⟩ := rel_some hrel
  simp only [View.nextOutBuf, hqueue] at hx'
  cases front with
  | cons a front => cases hx'
  | nil =>
    rw [Option.map_some, View.postRest_nil rfl] at hx'
    obtain rfl := Option.some.inj hx'
    have hcount := (hdrains.drained (List.map_eq_nil_iff.mp hholds.sends)).2
    rw [hholds.link] at hcount
    have hstuck : x.link.m_nPendingIoCnt = base + 1 := h.count
    exact absurd (hstuck.symm.trans hcount) (Nat.succ_ne_self base)

theorem Stuck.step {base : ℕ} {o o' : Outbox} {x : View UInt8} (h : Stuck base o x) {e : Sending}
    (hs' : Outbox.step o e = some o') : ¬ Drains base o' ∨ ∃ x', Stuck base o' x' := by
  cases e with
  | call pData hlen =>
    by_cases hroom : pData.length ≤ 2 ^ 32 - 1024
    swap
    · rw [Outbox.step, Holds.send_fault o.client hlen (by omega)] at hs'
      cases hs'
    by_cases hout : x.out = []
    · -- The send in flight is empty, and a second one joins it.
      obtain ⟨o₁, x', e, hopened, -, -, hsends', -⟩ := h.opened.send_idle hout hlen hroom
      obtain rfl := Option.some.inj (e.symm.trans hs')
      refine .inl fun hdrains => ?_
      have htwo := congrArg List.length (hopened.holds.sends.trans hsends')
      rw [h.sends, List.length_map] at htwo
      exact absurd hdrains.single (by simp [htwo])
    · obtain ⟨o₁, x', e, hopened, hout', hqueue', hsends', hcount', -⟩ :=
        h.opened.send_busy hout hlen hroom
      obtain rfl := Option.some.inj (e.symm.trans hs')
      refine .inr ⟨x', hopened, ?_, hcount'.trans h.count, .inr ?_⟩
      · rw [hsends', h.sends, hout']
      · rw [hqueue']
        exact List.append_ne_nil_of_right_ne_nil _ (List.cons_ne_nil _ _)
  | completed j n =>
    by_cases harrives : j = 0 ∧ n ≤ x.out.length ∧ (n = 0 ↔ x.out.length = 0)
    swap
    · rw [h.opened.completed_not h.sends harrives] at hs'
      obtain rfl := Option.some.inj hs'
      exact .inr ⟨x, h⟩
    obtain ⟨rfl, hle, hzero⟩ := harrives
    rcases Nat.lt_or_eq_of_le hle with hlt | rfl
    · -- Only a part of it went out, so the rest is posted.
      have hne : x.out.drop n ≠ [] := fun hnil => by
        have := congrArg List.length hnil
        rw [List.length_drop, List.length_nil] at this
        omega
      have hrel := h.opened.completed h.sends (by omega : 0 < n) hle
      rw [View.handleSend_rest (x := { x with sends := [] }) hne, hs'] at hrel
      obtain ⟨x', hx', hholds, -⟩ := rel_some hrel
      have hpost := View.postSend_open (x := { x with sends := [], out := x.out.drop n }) h.opened.socket
        h.opened.net
      rw [View.postRest, if_pos hne, hpost] at hx'
      obtain rfl := Option.some.inj hx'
      refine .inr ⟨_, ⟨hholds, h.opened.socket, fun k => h.opened.net (k + 1)⟩, rfl, h.count, ?_⟩
      exact .inr (h.behind.resolve_left fun hnil => by rw [hnil] at hlt; cases hlt)
    · -- All of it went out, and what is behind it is taken up.
      exact .inl (h.not_drains hs')

/-! ### Over all runs -/

theorem Stuck.not_always {base : ℕ} {o : Outbox} {x : View UInt8} (h : Stuck base o x) (es : List Sending) :
    ∃ n, ¬ Always Outbox.step (Drains base) o (es ++ [.completed 0 n]) := by
  induction es generalizing o x with
  | nil =>
    refine ⟨x.out.length, fun hall => ?_⟩
    obtain ⟨-, o', hs', hdrains⟩ := hall
    exact h.not_drains hs' hdrains
  | cons e es ih =>
    cases hs' : Outbox.step o e with
    | none =>
      refine ⟨0, fun hall => ?_⟩
      obtain ⟨-, o', hs'', -⟩ := hall
      rw [hs'] at hs''
      cases hs''
    | some o' =>
      have hnext (n : ℕ) (hall : Always Outbox.step (Drains base) o (e :: es ++ [.completed 0 n])) :
          Always Outbox.step (Drains base) o' (es ++ [.completed 0 n]) := by
        obtain ⟨-, o'', hs'', hrest⟩ := hall
        rwa [Option.some.inj (hs'.symm.trans hs'')]
      rcases h.step hs' with hno | ⟨x', h'⟩
      · exact ⟨0, fun hall => hno (hnext 0 hall).head⟩
      · obtain ⟨n, hno⟩ := ih h'
        exact ⟨n, fun hall => hno (hnext n hall)⟩

theorem Flowing.always_iff {base : ℕ} (hbase : base + 1 < 2 ^ 32) {o : Outbox} {x : View UInt8}
    (h : Flowing base o x) (es : List Sending) :
    (∀ rest : List Sending, (∀ e ∈ rest, e.isCompletion) →
      Always Outbox.step (Drains base) o (es ++ rest)) ↔ Meets Outbox.step FindsRoom o es := by
  have hok (o : Outbox) (e : Sending) : (∃ x, Flowing base o x) → FindsRoom o e →
      ∃ o', Outbox.step o e = some o' ∧ ∃ x', Flowing base o' x' := fun ⟨x, h⟩ hroom => h.step hbase hroom
  constructor
  · intro hall
    induction es generalizing o x with
    | nil => exact trivial
    | cons e es ih =>
      obtain ⟨-, o', hs', -⟩ := hall [] (by simp)
      have hnext (rest : List Sending) (hrest : ∀ e ∈ rest, e.isCompletion) :
          Always Outbox.step (Drains base) o' (es ++ rest) := by
        obtain ⟨-, o'', hs'', hrest⟩ := hall rest hrest
        rwa [Option.some.inj (hs'.symm.trans hs'')]
      rw [meets_cons_iff hs']
      by_cases hroom : FindsRoom o e
      · obtain ⟨o'', hs'', x', h'⟩ := h.step hbase hroom
        obtain rfl := Option.some.inj (hs''.symm.trans hs')
        exact ⟨hroom, ih h' hnext⟩
      · obtain ⟨x', h'⟩ := h.stuck hbase hroom hs'
        obtain ⟨n, hno⟩ := h'.not_always es
        exact absurd (hnext [.completed 0 n] (by simp [Sending.isCompletion])) hno
  · intro hmeets rest hrest
    refine always_of_meets (fun o => ∃ x, Flowing base o x) (fun o ⟨x, h⟩ => h.drains) hok ⟨x, h⟩
      (hmeets.append fun o' => ?_)
    induction rest generalizing o' with
    | nil => exact trivial
    | cons e rest ih =>
      rw [List.forall_mem_cons] at hrest
      cases e with
      | call pData hlen => cases hrest.1
      | completed j n => exact ⟨trivial, fun o'' _ => ih hrest.2 o''⟩

/-- The output of a client drains, whatever completes after its sends, just when every message finds
`m_outBuf` empty and is neither empty nor too long. -/
theorem drains_iff {base : ℕ} {o : Outbox} (h : Fresh base o) (es : List Sending) :
    (∀ rest : List Sending, (∀ e ∈ rest, e.isCompletion) →
      Always Outbox.step (Drains base) o (es ++ rest)) ↔ Meets Outbox.step FindsRoom o es := by
  obtain ⟨x, hx⟩ := h.flowing
  exact hx.always_iff h.base_lt es

def idle : Outbox := ⟨.accepted fun _ => true, 0⟩

theorem fresh_idle : Fresh 1 idle where
  holds := ⟨_, (Holds.new _).modify Link.handleAccept⟩
  socket := rfl
  net _ := rfl
  sends := rfl
  outLen := rfl
  queue := rfl
  count := rfl
  base_lt := by decide
  noClose := rfl

/-- Two bytes go out with two sends, and then one more. -/
theorem drains_iff_idle : Always Outbox.step (Drains 1) idle [.call [1, 2] (by decide), .completed 0 1,
    .completed 0 1, .call [3] (by decide), .completed 0 1] :=
  (drains_iff fresh_idle [.call [1, 2] (by decide), .completed 0 1, .completed 0 1, .call [3] (by decide),
    .completed 0 1]).mpr (by decide +kernel) [] (by simp)

/-- An empty message is taken for a close of the peer, lets a second send come in between, or, out of the
queue, keeps its reference. The block of any other message in the queue is gone when it comes out. -/
theorem not_drains_empty :
    (∃ o, run Outbox.step idle [.call [] (by decide), .completed 0 0] = some o ∧ o.mistaken = 1) ∧
    (∃ o, run Outbox.step idle [.call [] (by decide), .call [1] (by decide)] = some o ∧
      o.client.sends.length = 2) ∧
    (∃ o, run Outbox.step idle [.call [1] (by decide), .call [] (by decide), .completed 0 1] = some o ∧
      o.client.sends = [] ∧ o.client.link.m_nPendingIoCnt = 2) ∧
    run Outbox.step idle [.call [1] (by decide), .call [2] (by decide), .completed 0 1] = none ∧
    ¬ ∀ es, Always Outbox.step (Drains 1) idle es := by
  have hclosed : (run Outbox.step idle [.call [] (by decide), .completed 0 0]).any fun o =>
      decide (o.mistaken = 1) := by decide +kernel
  have htwo : (run Outbox.step idle [.call [] (by decide), .call [1] (by decide)]).any fun o =>
      decide (o.client.sends.length = 2) := by decide +kernel
  have hleft : (run Outbox.step idle [.call [1] (by decide), .call [] (by decide), .completed 0 1]).any fun o =>
      decide (o.client.sends.length = 0 ∧ o.client.link.m_nPendingIoCnt = 2) := by decide +kernel
  have hgone : (run Outbox.step idle [.call [1] (by decide), .call [2] (by decide), .completed 0 1]).isNone := by
    decide +kernel
  obtain ⟨o₁, h₁, hmistaken⟩ := exists_of_any hclosed
  obtain ⟨o₂, h₂, hsends⟩ := exists_of_any htwo
  obtain ⟨o₃, h₃, hend⟩ := exists_of_any hleft
  obtain ⟨hnone, hcount⟩ := of_decide_eq_true hend
  refine ⟨⟨o₁, h₁, of_decide_eq_true hmistaken⟩, ⟨o₂, h₂, of_decide_eq_true hsends⟩,
    ⟨o₃, h₃, List.eq_nil_of_length_eq_zero hnone, hcount⟩, Option.isNone_iff_eq_none.mp hgone, fun hall => ?_⟩
  have hdrains := (hall _).end_of_run h₁
  exact absurd (hdrains.noClose.symm.trans (of_decide_eq_true hmistaken)) (by decide)

end Outbox
end NetDemo.Client
