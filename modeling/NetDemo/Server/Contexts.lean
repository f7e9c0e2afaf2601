import NetDemo.Server.Accounting

/-! Where the contexts of the server are, how many of them are constructed, and how many of its accepts are
left, whatever the system answers. -/

namespace NetDemo.Server
open Foundation

/-- The call of `associateWithCompletionPort` does not fail. -/
def Associates (s : IocpServer) : Act → Prop
  | .exec c i ok => s.next? c i = some .associate → ok = true
  | _ => True

instance (s : IocpServer) : DecidablePred (Associates s)
  | .exec c i ok => inferInstanceAs (Decidable (s.next? c i = some .associate → ok = true))
  | .accept | .acceptor .. | .recv .. | .send .. => .isTrue trivial

namespace IocpServer
variable {app : App} {s s' : IocpServer}

/-! ### The places of a context -/

/-- On how many lists the context is, and how many handlers are about to put it on the first. -/
def places (s : IocpServer) (c : ℕ) : ℕ := s.onLists c + (s.client c).weigh Instr.adds

/-- No context is in two places. -/
structure Spread (s : IocpServer) : Prop where
  built : s.Built
  le : ∀ c, s.places c ≤ if c < s.constructed then 1 else 0

/-- What a step does to the contexts. A context that `associateWithCompletionPort` fails for is lost. -/
inductive Moved (s s' : IocpServer) : Act → Prop
  | stays {act : Act} : Associates s act → s'.constructed = s.constructed →
      (∀ c, s'.places c = s.places c) → Moved s s' act
  | constructs {act : Act} : Associates s act → s'.constructed = s.constructed + 1 →
      (∀ c, s'.places c = if c = s.constructed then 1 else s.places c) → Moved s s' act
  | loses {c i : ℕ} : s.next? c i = some .associate → c < s.constructed → s'.constructed = s.constructed →
      (∀ d, s'.places d + (if d = c then 1 else 0) = s.places d) → Moved s s' (.exec c i false)

theorem Spread.le_one (h : s.Spread) (c : ℕ) : s.places c ≤ 1 := by
  have hle := h.le c
  split_ifs at hle <;> omega

theorem Spread.places_constructed (h : s.Spread) : s.places s.constructed = 0 := by
  have hle := h.le s.constructed
  rw [if_neg (lt_irrefl _)] at hle
  exact Nat.le_zero.mp hle

theorem places_update {c : ℕ} {cl : ClientContext} (hclient : s'.client = Function.update s.client c cl)
    {d : ℕ} (hd : d ≠ c) (hlists : s'.onLists d = s.onLists d) : s'.places d = s.places d := by
  rw [places, places, hclient, Function.update_of_ne hd, hlists]

theorem places_self {c : ℕ} {cl : ClientContext} (hclient : s'.client = Function.update s.client c cl) :
    s'.places c = s'.onLists c + cl.weigh Instr.adds := by
  rw [places, hclient, Function.update_self]

theorem Spread.moved_allocate (h : s.Spread) (i x : ℕ) (ok : Bool) :
    Moved s (s.acceptStep i ok (.allocate, x)) (.acceptor i ok) := by
  rw [h.built.allocate]
  cases hlist : s.m_freeClientList with
  | nil =>
    have hnew : s.allocated = s.constructed := by
      rw [allocated, hlist]
      rfl
    have hzero := h.places_constructed
    rw [places] at hzero
    refine .constructs trivial rfl fun c => ?_
    rw [hnew]
    by_cases hc : c = s.constructed
    · rw [if_pos hc, hc, places_self rfl, ClientContext.weigh_seated]
      simp only [onLists, hlist, List.tail_nil] at hzero ⊢
      show _ + (_ + 1) = 1
      omega
    · rw [if_neg hc]
      refine places_update rfl hc ?_
      simp only [onLists, hlist, List.tail_nil]
  | cons c rest =>
    have hhead : s.allocated = c := by
      rw [allocated, hlist]
      rfl
    refine .stays trivial rfl fun d => ?_
    rw [hhead]
    by_cases hd : d = c
    · -- The place on the free list is given up for the way to the other one.
      rw [hd, places_self rfl, places, ClientContext.weigh_seated]
      simp only [onLists, hlist, List.tail_cons, List.count_cons_self]
      show _ + (_ + 1) = _
      omega
    · refine places_update rfl hd ?_
      simp only [onLists, hlist, List.tail_cons, List.count_cons_of_ne (Ne.symm hd)]

theorem outside_places {c : ℕ} (hle : s.onLists c ≤ 1) (app : App) (ok : Bool) (instr : Instr) :
    (s.outside c ok instr).onLists c + (((s.client c).exec app ok instr).2.map Instr.adds).sum +
      (if instr = .associate ∧ ok = false then 1 else 0) = s.onLists c + instr.adds := by
  cases instr with
  | associate => cases ok <;> rfl
  | enterIoLoop => rfl
  | postAccept => cases ok <;> rfl
  | addClient =>
    simp only [outside, addClient, onLists, List.count_append, List.count_singleton_self]
    show _ + 1 + _ + 0 + 0 = _ + _ + 1
    omega
  | removeClient =>
    simp only [outside, removeClient]
    split_ifs with hmem hno
    · cases hno.1
    · have hpos := List.count_pos_iff.mpr hmem
      have hzero : (s.m_connectedClientList.filter (· ≠ c)).count c = 0 :=
        List.count_eq_zero.mpr fun hc => by simpa using (List.mem_filter.mp hc).2
      simp only [onLists] at hle
      simp only [onLists, List.count_append, List.count_singleton_self, hzero]
      show _ + _ + 0 + 0 = _ + _ + 0
      omega
    · next hno => cases hno.1
    · rfl
  | closesocket x => cases ok <;> rfl
  | closeClient =>
    cases hs : (s.client c).m_socket <;> simp [outside, ClientContext.exec, hs, Instr.adds]
  | _ =>
    rw [sum_plain adds_plain (ClientContext.exec_plain (by simp) (by simp) (by simp) app _ ok).2]
    rfl

theorem Spread.places_exec (h : s.Spread) {c i : ℕ} {ok : Bool} (hs' : s.step app (.exec c i ok) = some s') :
    ∃ instr, s.next? c i = some instr ∧ c < s.constructed ∧ s'.constructed = s.constructed ∧
      ∀ d, s'.places d + (if d = c ∧ instr = .associate ∧ ok = false then 1 else 0) = s.places d := by
  obtain ⟨instr, code, pre, post, cl, hi, hgo, -, rfl⟩ := step_exec hs'
  have hclient := client_setClient_outside s c ok instr cl
  refine ⟨instr, next?_eq_some.mpr ⟨code, hi⟩, h.built.lt_of_running hi, (outside_client s c ok instr).2.1,
    fun d => ?_⟩
  by_cases hd : d = c
  · have hadds := outside_places ((Nat.le_add_right _ _).trans (h.le_one c)) app ok instr
    have hweigh := hgo.weigh Instr.adds
    simp only [hd, true_and]
    rw [places_self hclient, places]
    show (s.outside c ok instr).onLists c + _ + _ = _
    omega
  · rw [if_neg fun hlost => hd hlost.1, add_zero]
    exact places_update hclient hd (Listed.outside_onLists s c ok instr hd)

theorem Spread.moved (h : s.Spread) {act : Act} (hs' : s.step app act = some s') : Moved s s' act := by
  by_cases hexec : ∃ c i ok, act = .exec c i ok
  · obtain ⟨c, i, ok, rfl⟩ := hexec
    obtain ⟨instr, hnext, hc, hcon, hplaces⟩ := h.places_exec hs'
    by_cases hlost : instr = .associate ∧ ok = false
    · obtain ⟨rfl, rfl⟩ := hlost
      exact .loses hnext hc hcon fun d => by simpa using hplaces d
    · refine .stays (fun hassociate => ?_) hcon fun d => ?_
      · obtain rfl := Option.some.inj (hnext.symm.trans hassociate)
        simpa using hlost
      · simpa [hlost] using hplaces d
  · have hassociates : Associates s act := by
      cases act with
      | exec c i ok => exact absurd ⟨c, i, ok, rfl⟩ hexec
      | _ => trivial
    cases step_effect hs' with
    | aside haside =>
      refine .stays hassociates haside.constructed fun c => ?_
      rw [places, places, onLists, onLists, haside.client, haside.connected, haside.free]
    | allocate hs =>
      rw [hs]
      exact h.moved_allocate ..
    | @handler _ c cl code hne hs hsocket hrun hcode =>
      rw [hs]
      refine .stays hassociates rfl fun d => ?_
      by_cases hd : d = c
      · have hweigh := ClientContext.weigh_concat Instr.adds hrun
        rw [sum_plain adds_plain hcode, add_zero] at hweigh
        rw [hd, places_self rfl, hweigh]
        rfl
      · exact places_update rfl hd rfl
    | exec => exact absurd ⟨_, _, _, rfl⟩ hexec

theorem Spread.new (max : ℕ) : Spread (.new max) := ⟨Built.new max, fun _ => Nat.zero_le _⟩

theorem Spread.step (h : s.Spread) {act : Act} (hs' : s.step app act = some s') : s'.Spread := by
  refine ⟨h.built.step hs', fun c => ?_⟩
  have hle := h.le c
  cases h.moved hs' with
  | stays _ hcon hplaces => rwa [hcon, hplaces c]
  | constructs _ hcon hplaces =>
    rw [hcon, hplaces c]
    split_ifs at hle ⊢ <;> omega
  | loses _ _ hcon hplaces =>
    have hc := hplaces c
    rw [hcon]
    exact le_trans (by omega) hle

/-- Every context that was constructed is in one place. -/
def Stored (s : IocpServer) : Prop := ∀ c < s.constructed, s.places c = 1

theorem Stored.new (max : ℕ) : Stored (.new max) := fun c hc => absurd hc (Nat.not_lt_zero c)

theorem Stored.step_iff (h : s.Spread) (hall : s.Stored) {act : Act} (hs' : s.step app act = some s') :
    s'.Stored ↔ Associates s act := by
  cases h.moved hs' with
  | stays hassociates hcon hplaces =>
    exact iff_of_true (fun c hc => (hplaces c).trans (hall c (hcon ▸ hc))) hassociates
  | constructs hassociates hcon hplaces =>
    refine iff_of_true (fun c hc => ?_) hassociates
    rw [hplaces c]
    split_ifs with hnew
    · rfl
    · exact hall c (by omega)
  | @loses c i hnext hc hcon hplaces =>
    refine iff_of_false (fun hstored => ?_) fun hassociates => Bool.false_ne_true (hassociates hnext)
    have hself := hplaces c
    rw [if_pos rfl, hall c hc, hstored c (hcon ▸ hc)] at hself
    cases hself

end IocpServer

/-- Every context stays on one of the lists or on its way to the first, if and only if no call of
`associateWithCompletionPort` fails. -/
theorem stored_contexts_iff {app : App} {max : ℕ} {acts : List Act} {s : IocpServer}
    (hrun : run (IocpServer.step app) (.new max) acts = some s) :
    Always (IocpServer.step app) IocpServer.Stored (.new max) acts ↔
      Meets (IocpServer.step app) Associates (.new max) acts :=
  always_iff_meets_of_run (P := IocpServer.Stored) (fun s => s.Spread ∧ s.Stored) (fun _ h => h.2)
    (fun _ _ _ h hok hstep => ⟨h.1.step hstep, (h.2.step_iff h.1 hstep).mpr hok⟩)
    (fun _ _ _ h hno hstep => mt (h.2.step_iff h.1 hstep).mp hno)
    ⟨.new max, .new max⟩ hrun

namespace IocpServer
variable {app : App} {s s' : IocpServer}

/-! ### How many contexts are constructed -/

/-- The contexts that are connected or are about to be. -/
def inUse (s : IocpServer) : ℕ := s.m_connectedClientList.length + s.total (ClientContext.weigh Instr.adds)

theorem lt_of_mem_lists (h : s.Spread) {c : ℕ}
    (hc : c ∈ s.m_connectedClientList ∨ c ∈ s.m_freeClientList) : c < s.constructed := by
  have hpos : 0 < s.onLists c := by
    rcases hc with hc | hc <;> have := List.count_pos_iff.mpr hc <;> rw [onLists] <;> omega
  have hle := h.le c
  rw [places] at hle
  split_ifs at hle with hlt
  · exact hlt
  · omega

theorem sum_count {l : List ℕ} {n : ℕ} (h : ∀ c ∈ l, c < n) : ∑ c ∈ Finset.range n, l.count c = l.length := by
  have hcard := @Multiset.sum_count_eq_card ℕ _ (Finset.range n) l fun c hc => Finset.mem_range.mpr (h c hc)
  simpa using hcard

theorem inUse_add_length (h : s.Spread) (hall : s.Stored) :
    s.inUse + s.m_freeClientList.length = s.constructed := by
  have hsum : ∑ c ∈ Finset.range s.constructed, s.places c = s.constructed := by
    rw [Finset.sum_congr rfl fun c hc => hall c (Finset.mem_range.mp hc)]
    simp
  have hconn := sum_count fun c hc => lt_of_mem_lists h (.inl hc)
  have hfree := sum_count fun c hc => lt_of_mem_lists h (.inr hc)
  simp only [places, onLists, Finset.sum_add_distrib, hconn, hfree] at hsum
  rw [inUse, total]
  omega

theorem constructed_step (h : s.Spread) {act : Act} (hs' : s.step app act = some s') :
    s'.constructed = s.constructed ∨ s'.constructed = s.constructed + 1 ∧ s'.m_freeClientList = [] := by
  cases step_effect hs' with
  | aside haside => exact .inl haside.constructed
  | allocate hs =>
    rw [hs, h.built.allocate]
    by_cases hlist : s.m_freeClientList = []
    · exact .inr ⟨congrArg (s.constructed + ·) (if_pos hlist), by rw [hlist]; rfl⟩
    · exact .inl (congrArg (s.constructed + ·) (if_neg hlist))
  | handler hne hs =>
    rw [hs]
    exact .inl rfl
  | exec hi hgo hsocket hs =>
    rw [hs]
    exact .inl (outside_client ..).2.1

end IocpServer

/-- As long as no call of `associateWithCompletionPort` fails, as many contexts are constructed as there
were in use at one time. -/
theorem constructed_eq_peak {app : App} {max : ℕ} {acts : List Act}
    (hmeets : Meets (IocpServer.step app) Associates (.new max) acts) {s : IocpServer}
    (hrun : run (IocpServer.step app) (.new max) acts = some s) :
    (∀ before after s₁, acts = before ++ after → run (IocpServer.step app) (.new max) before = some s₁ →
      s₁.inUse ≤ s.constructed) ∧
    ∃ before after s₁, acts = before ++ after ∧ run (IocpServer.step app) (.new max) before = some s₁ ∧
      s₁.inUse = s.constructed := by
  have hspread {before : List Act} {s₁ : IocpServer}
      (hbefore : run (IocpServer.step app) (.new max) before = some s₁) : s₁.Spread :=
    run_preserves IocpServer.Spread (.new max) (fun _ _ _ h hstep => h.step hstep) hbefore
  have hcounts {before after : List Act} {s₁ : IocpServer} (hacts : acts = before ++ after)
      (hbefore : run (IocpServer.step app) (.new max) before = some s₁) :
      s₁.inUse + s₁.m_freeClientList.length = s₁.constructed := by
    rw [hacts] at hmeets
    have hstored : s₁.Spread ∧ s₁.Stored :=
      run_invariant (fun s => s.Spread ∧ s.Stored) ⟨.new max, .new max⟩
        (fun _ _ _ h hok hstep => ⟨h.1.step hstep, (h.2.step_iff h.1 hstep).mpr hok⟩) hmeets.of_append hbefore
    exact IocpServer.inUse_add_length hstored.1 hstored.2
  constructor
  · intro before after s₁ hacts hbefore
    have hused := hcounts hacts hbefore
    rw [hacts, run_append_of_eq hbefore] at hrun
    have hmono : s.Spread ∧ s₁.constructed ≤ s.constructed :=
      run_preserves (fun s => s.Spread ∧ s₁.constructed ≤ s.constructed) ⟨hspread hbefore, le_rfl⟩
        (fun t _ t' ht hstep => ⟨ht.1.step hstep, by
          rcases IocpServer.constructed_step ht.1 hstep with hsame | ⟨hnew, -⟩ <;> omega⟩) hrun
    omega
  · rcases run_last_change IocpServer.Spread (.new max) (fun _ _ _ h hstep => h.step hstep)
      (fun _ _ _ h hstep => (IocpServer.constructed_step h hstep).imp_right And.right) hrun with
      hnone | ⟨before, after, s₁, hacts, hbefore, hempty, hlast⟩
    · exact ⟨[], acts, .new max, rfl, rfl, hnone.symm⟩
    · have hused := hcounts hacts hbefore
      rw [hempty] at hused
      exact ⟨before, after, s₁, hacts, hbefore, hused.trans hlast.symm⟩

/-- A connection comes and goes, and another one takes its context. -/
def reconnect : List Act :=
  connect ++ [.recv 0 none, .exec 0 0 true, .exec 0 0 true, .exec 0 0 true, .exec 0 0 true] ++ connect

theorem stored_contexts_iff_reconnect : ∃ s, run (IocpServer.step .echo) (.new 1) reconnect = some s ∧
    (Always (IocpServer.step .echo) IocpServer.Stored (.new 1) reconnect ↔
      Meets (IocpServer.step .echo) Associates (.new 1) reconnect) := by
  have hend : (run (IocpServer.step .echo) (.new 1) reconnect).any fun _ => true := by decide +kernel
  obtain ⟨s, hrun, -⟩ := exists_of_any hend
  exact ⟨s, hrun, stored_contexts_iff hrun⟩

theorem constructed_eq_peak_reconnect : ∃ s, run (IocpServer.step .echo) (.new 1) reconnect = some s ∧
    s.constructed = 1 ∧
    (∀ before after s₁, reconnect = before ++ after →
      run (IocpServer.step .echo) (.new 1) before = some s₁ → s₁.inUse ≤ s.constructed) ∧
    ∃ before after s₁, reconnect = before ++ after ∧
      run (IocpServer.step .echo) (.new 1) before = some s₁ ∧ s₁.inUse = s.constructed := by
  have hend : (run (IocpServer.step .echo) (.new 1) reconnect).any fun s => decide (s.constructed = 1) := by
    decide +kernel
  obtain ⟨s, hrun, hs⟩ := exists_of_any hend
  exact ⟨s, hrun, of_decide_eq_true hs, constructed_eq_peak (by decide +kernel) hrun⟩

/-! ### The accepts that are left -/

/-- The `AcceptIoContext` that a worker has is posted again. -/
def Reposts (s : IocpServer) : Act → Prop
  | .acceptor i ok => ∀ x, s.acceptors[i]? = some (.postAccept, x) → ok = true
  | .exec c i ok => s.next? c i = some .associate ∨ s.next? c i = some .postAccept → ok = true
  | _ => True

instance (s : IocpServer) : DecidablePred (Reposts s)
  | .acceptor i ok => decidable_of_iff ((s.acceptors[i]?).all fun
      | (.postAccept, _) => ok
      | _ => true) <| by
    rw [Option.all_eq_true]
    refine ⟨fun h x hi => h _ hi, fun h a hi => ?_⟩
    obtain ⟨stage, x⟩ := a
    cases stage with
    | postAccept => exact h x hi
    | _ => rfl
  | .exec c i ok =>
    inferInstanceAs (Decidable (s.next? c i = some .associate ∨ s.next? c i = some .postAccept → ok = true))
  | .accept | .recv .. | .send .. => .isTrue trivial

namespace IocpServer
variable {app : App} {s s' : IocpServer}

theorem reposts_exec_add (cl : ClientContext) (app : App) (ok : Bool) (s : IocpServer) (c : ℕ) (instr : Instr) :
    (s.outside c ok instr).accepts + ((cl.exec app ok instr).2.map Instr.reposts).sum +
      (if (instr = .associate ∨ instr = .postAccept) ∧ ok = false then 1 else 0) =
        s.accepts + instr.reposts := by
  cases instr with
  | associate => cases ok <;> rfl
  | enterIoLoop => rfl
  | postAccept => cases ok <;> rfl
  | closeClient =>
    cases hs : cl.m_socket <;> simp [outside, ClientContext.exec, hs, Instr.reposts]
  | closesocket x => cases ok <;> rfl
  | removeClient =>
    have hout : (s.outside c ok .removeClient).accepts = s.accepts := by
      simp only [outside, removeClient]
      split_ifs <;> rfl
    rw [hout]
    rfl
  | addClient => rfl
  | _ =>
    rw [sum_plain reposts_plain (ClientContext.exec_plain (by simp) (by simp) (by simp) app cl ok).2]
    rfl

theorem accepting_acceptor_add (h : s.Built) {i : ℕ} {ok : Bool} {stage : Stage} {x : ℕ}
    (hi : s.acceptors[i]? = some (stage, x)) :
    (s.acceptStep i ok (stage, x)).accepting + (if stage = .postAccept ∧ ok = false then 1 else 0) =
      s.accepting := by
  obtain ⟨hlt, -⟩ := List.getElem?_eq_some_iff.mp hi
  have herase := List.length_eraseIdx_of_lt hlt
  cases stage with
  | testLimit =>
    rw [if_neg (by simp), add_zero]
    simp only [acceptStep]
    split_ifs <;> simp only [accepting, List.length_set] <;> rfl
  | countClient =>
    rw [if_neg (by simp), add_zero]
    simp only [acceptStep, accepting, List.length_set]
    rfl
  | allocate =>
    -- The handler of the new context posts the accept that this worker has.
    have htotal := total_allocate h (f := ClientContext.weigh Instr.reposts) rfl i x ok
    have hweigh : ((s.client s.allocated).seated x).weigh Instr.reposts =
        (s.client s.allocated).weigh Instr.reposts + 1 := ClientContext.weigh_seated ..
    have hframe : (s.acceptStep i ok (.allocate, x)).accepts = s.accepts ∧
        (s.acceptStep i ok (.allocate, x)).acceptors = s.acceptors.eraseIdx i := by
      rw [h.allocate]
      exact ⟨rfl, rfl⟩
    rw [if_neg (by simp), accepting, accepting, hframe.1, hframe.2]
    omega
  | postAccept =>
    cases ok
    all_goals
      simp only [acceptStep, accepting, postAccept, if_true, Bool.false_eq_true, if_false, and_self,
        Bool.true_eq_false, and_false]
      show _ + _ + s.total (ClientContext.weigh Instr.reposts) + _ = _
      omega

theorem accepting_add (h : s.Built) {act : Act} (hs' : s.step app act = some s') :
    s'.accepting + (if Reposts s act then 0 else 1) = s.accepting := by
  have hcomplete (hact : (∃ c d, act = .recv c d) ∨ ∃ c j n, act = .send c j n) :
      s'.accepting = s.accepting := by
    obtain ⟨c, cl, code, hne, rfl, -, hrun, hcode⟩ := step_complete hact hs'
    exact congrArg (s.accepts + s.acceptors.length + ·) (total_handler reposts_plain h hne hrun hcode)
  cases act with
  | accept =>
    simp only [step] at hs'
    split_ifs at hs' with hpos
    obtain rfl := Option.some.inj hs'
    rw [if_pos (show Reposts s .accept from trivial)]
    simp only [accepting, List.length_append, List.length_singleton]
    show _ + _ + s.total (ClientContext.weigh Instr.reposts) + 0 = _
    omega
  | acceptor i ok =>
    obtain ⟨⟨stage, x⟩, hi, rfl⟩ := Option.map_eq_some_iff.mp hs'
    have hreposts : Reposts s (.acceptor i ok) ↔ ¬ (stage = .postAccept ∧ ok = false) := by
      simp [Reposts, hi]
    rw [if_congr hreposts rfl rfl, ite_not]
    exact accepting_acceptor_add h hi
  | recv c d =>
    rw [if_pos (show Reposts s (.recv c d) from trivial), hcomplete (.inl ⟨c, d, rfl⟩), add_zero]
  | send c j n =>
    rw [if_pos (show Reposts s (.send c j n) from trivial), hcomplete (.inr ⟨c, j, n, rfl⟩), add_zero]
  | exec c i ok =>
    obtain ⟨instr, code, pre, post, cl, hi, hgo, -, rfl⟩ := step_exec hs'
    have htotal := total_exec (ClientContext.weigh Instr.reposts) (h.lt_of_running hi) ok instr cl
    have hweigh := hgo.weigh Instr.reposts
    have hadd := reposts_exec_add (s.client c) app ok s c instr
    have hreposts : Reposts s (.exec c i ok) ↔ ¬ ((instr = .associate ∨ instr = .postAccept) ∧ ok = false) := by
      simp [Reposts, next?_eq_some.mpr ⟨code, hi⟩]
    rw [if_congr hreposts rfl rfl, ite_not]
    show (s.outside c ok instr).accepts + (s.outside c ok instr).acceptors.length + _ + _ = _
    rw [(outside_client s c ok instr).2.2, accepting]
    omega

end IocpServer

/-- Every accept that is not posted again is lost for good, and so all of them stay in flight or with a
worker just when each one is posted again. -/
theorem accepting_iff {app : App} {max : ℕ} {acts : List Act} {s : IocpServer}
    (hrun : run (IocpServer.step app) (.new max) acts = some s) :
    s.accepting + misses (IocpServer.step app) Reposts (.new max) acts = POST_ACCEPT_CNT ∧
      (Always (IocpServer.step app) (fun s => s.accepting = POST_ACCEPT_CNT) (.new max) acts ↔
        Meets (IocpServer.step app) Reposts (.new max) acts) := by
  refine ⟨run_add_misses IocpServer.Built (fun _ _ _ h hs => h.step hs)
    (fun _ _ _ h hs => IocpServer.accepting_add h hs) (.new max) hrun, ?_⟩
  refine always_iff_meets_of_run (fun s => s.Built ∧ s.accepting = POST_ACCEPT_CNT) (fun _ h => h.2)
    (fun s act s' h hok hstep => ?_) (fun s act s' h hno hstep => ?_) ⟨.new max, rfl⟩ hrun
  all_goals have hadd := IocpServer.accepting_add h.1 hstep
  · rw [if_pos hok, add_zero] at hadd
    exact ⟨h.1.step hstep, hadd.trans h.2⟩
  · rw [if_neg hno, h.2] at hadd
    omega

/-- The association of the first connection fails. -/
def unassociated : List Act :=
  [.accept, .acceptor 0 true, .acceptor 0 true, .acceptor 0 true, .exec 0 0 false]

theorem accepting_iff_unassociated : ∃ s, run (IocpServer.step .echo) (.new 1) unassociated = some s ∧
    s.accepting + 1 = POST_ACCEPT_CNT ∧
    ¬ Always (IocpServer.step .echo) (fun s => s.accepting = POST_ACCEPT_CNT) (.new 1) unassociated := by
  have hend : (run (IocpServer.step .echo) (.new 1) unassociated).any fun _ => true := by decide +kernel
  have hmisses : misses (IocpServer.step .echo) Reposts (.new 1) unassociated = 1 := by decide +kernel
  obtain ⟨s, hrun, -⟩ := exists_of_any hend
  obtain ⟨hcount, hiff⟩ := accepting_iff hrun
  rw [hmisses] at hcount
  exact ⟨s, hrun, hcount, fun hall => absurd (hiff.mp hall) (by decide +kernel)⟩

end NetDemo.Server
