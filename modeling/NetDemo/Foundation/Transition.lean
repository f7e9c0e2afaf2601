import Mathlib.Tactic.Common

/-! Runs of partial transition functions, invariants of what they reach, and simulation of one
transition function by another. -/

namespace NetDemo.Foundation
variable {σ τ ε : Type}

theorem rel_bind {σ' τ' : Type} {R : σ → τ → Prop} {S : σ' → τ' → Prop} {a : Option σ} {b : Option τ}
    {f : σ → Option σ'} {g : τ → Option τ'} (h : Option.Rel R a b)
    (hf : ∀ s t, R s t → Option.Rel S (f s) (g t)) : Option.Rel S (a.bind f) (b.bind g) := by
  cases h with
  | none => exact .none
  | some h => exact hf _ _ h

theorem rel_mono {R S : σ → τ → Prop} {a : Option σ} {b : Option τ} (h : Option.Rel R a b)
    (hRS : ∀ s t, R s t → S s t) : Option.Rel S a b := by
  cases h with
  | none => exact .none
  | some h => exact .some (hRS _ _ h)

theorem rel_map_left {σ' : Type} {R : σ → τ → Prop} {S : σ' → τ → Prop} {a : Option σ} {b : Option τ}
    {f : σ → σ'} (h : Option.Rel R a b) (hf : ∀ s t, R s t → S (f s) t) : Option.Rel S (a.map f) b := by
  cases h with
  | none => exact .none
  | some h => exact .some (hf _ _ h)

theorem map_eq_of_rel {β : Type} {R : σ → τ → Prop} {a : Option σ} {b : Option τ} (h : Option.Rel R a b)
    {f : σ → β} {g : τ → β} (hfg : ∀ s t, R s t → f s = g t) : a.map f = b.map g := by
  cases h with
  | none => rfl
  | some h => exact congrArg some (hfg _ _ h)

theorem rel_some {R : σ → τ → Prop} {a : σ} {b : Option τ} (h : Option.Rel R (some a) b) :
    ∃ b', b = some b' ∧ R a b' := by
  cases h with
  | some h => exact ⟨_, rfl, h⟩

theorem rel_some_right {R : σ → τ → Prop} {a : Option σ} {b : τ} (h : Option.Rel R a (some b)) :
    ∃ a', a = some a' ∧ R a' b := by
  cases h with
  | some h => exact ⟨_, rfl, h⟩

def run (step : σ → ε → Option σ) : σ → List ε → Option σ
  | s, [] => some s
  | s, e :: es => (step s e).bind fun s => run step s es

@[simp] theorem run_nil (step : σ → ε → Option σ) (s : σ) : run step s [] = some s := rfl

theorem run_cons (step : σ → ε → Option σ) (s : σ) (e : ε) (es : List ε) :
    run step s (e :: es) = (step s e).bind fun s => run step s es := rfl

theorem run_append (step : σ → ε → Option σ) (s : σ) (es fs : List ε) :
    run step s (es ++ fs) = (run step s es).bind fun s => run step s fs := by
  induction es generalizing s with
  | nil => rfl
  | cons e es ih => simp only [List.cons_append, run_cons, ih, Option.bind_assoc]

theorem run_append_of_eq {step : σ → ε → Option σ} {s s' : σ} {es : List ε} (h : run step s es = some s')
    (fs : List ε) : run step s (es ++ fs) = run step s' fs := by rw [run_append, h, Option.bind_some]

theorem run_rel {step : σ → ε → Option σ} {step' : τ → ε → Option τ} {R : σ → τ → Prop}
    (hstep : ∀ s t e, R s t → Option.Rel R (step s e) (step' t e)) {s : σ} {t : τ} (h : R s t)
    (es : List ε) : Option.Rel R (run step s es) (run step' t es) := by
  induction es generalizing s t with
  | nil => exact .some h
  | cons e es ih => exact rel_bind (hstep s t e h) fun _ _ h => ih h

theorem exists_of_any {step : σ → ε → Option σ} {P : σ → Bool} {s : σ} {es : List ε}
    (h : (run step s es).any P = true) : ∃ s', run step s es = some s' ∧ P s' = true :=
  (Option.any_eq_true ..).mp h

/-- The run comes to its end, and `P` holds in every state on its way. -/
def Always (step : σ → ε → Option σ) (P : σ → Prop) : σ → List ε → Prop
  | s, [] => P s
  | s, e :: es => P s ∧ ∃ s', step s e = some s' ∧ Always step P s' es

/-- Every step of the run meets `ok` in the state it starts from. -/
def Meets (step : σ → ε → Option σ) (ok : σ → ε → Prop) : σ → List ε → Prop
  | _, [] => True
  | s, e :: es => ok s e ∧ ∀ s', step s e = some s' → Meets step ok s' es

instance decidableMeets (step : σ → ε → Option σ) (ok : σ → ε → Prop) [∀ s e, Decidable (ok s e)] :
    ∀ s es, Decidable (Meets step ok s es)
  | _, [] => .isTrue trivial
  | s, e :: es =>
    match h : step s e with
    | none => decidable_of_iff (ok s e) ⟨fun hok => ⟨hok, by simp [h]⟩, And.left⟩
    | some s' =>
      have := decidableMeets step ok s' es
      decidable_of_iff (ok s e ∧ Meets step ok s' es) (by simp [Meets, h])

theorem meets_cons_iff {step : σ → ε → Option σ} {ok : σ → ε → Prop} {s s₁ : σ} {e : ε} {es : List ε}
    (hs : step s e = some s₁) : Meets step ok s (e :: es) ↔ ok s e ∧ Meets step ok s₁ es := by
  refine and_congr_right fun _ => ⟨fun h => h s₁ hs, fun h t ht => ?_⟩
  obtain rfl := Option.some.inj (hs.symm.trans ht)
  exact h

/-- What every step that meets `ok` keeps holds at the end of a run of such steps. -/
theorem run_invariant {step : σ → ε → Option σ} {ok : σ → ε → Prop} (inv : σ → Prop) {s s' : σ} (h : inv s)
    (hstep : ∀ s e s', inv s → ok s e → step s e = some s' → inv s') {es : List ε} (hes : Meets step ok s es)
    (hrun : run step s es = some s') : inv s' := by
  induction es generalizing s with
  | nil =>
    obtain rfl := Option.some.inj hrun
    exact h
  | cons e es ih =>
    rw [run_cons, Option.bind_eq_some_iff] at hrun
    obtain ⟨s₁, hs₁, hrun⟩ := hrun
    exact ih (hstep s e s₁ h hes.1 hs₁) (hes.2 s₁ hs₁) hrun

theorem meets_of_forall_mem {step : σ → ε → Option σ} {ok : ε → Prop} {es : List ε} (h : ∀ e ∈ es, ok e)
    (s : σ) : Meets step (fun _ => ok) s es := by
  induction es generalizing s with
  | nil => exact trivial
  | cons e es ih =>
    exact ⟨h e List.mem_cons_self, fun s' _ => ih (fun a ha => h a (List.mem_cons_of_mem e ha)) s'⟩

theorem meets_of_forall {step : σ → ε → Option σ} {ok : σ → ε → Prop} (h : ∀ s e, ok s e) (s : σ)
    (es : List ε) : Meets step ok s es := by
  induction es generalizing s with
  | nil => exact trivial
  | cons e es ih => exact ⟨h s e, fun s' _ => ih s'⟩

theorem Meets.append {step : σ → ε → Option σ} {ok : σ → ε → Prop} {s : σ} {es fs : List ε}
    (h : Meets step ok s es) (hrest : ∀ s', Meets step ok s' fs) : Meets step ok s (es ++ fs) := by
  induction es generalizing s with
  | nil => exact hrest s
  | cons e es ih => exact ⟨h.1, fun s' hs' => ih (h.2 s' hs')⟩

theorem Meets.of_append {step : σ → ε → Option σ} {ok : σ → ε → Prop} {s : σ} {es fs : List ε}
    (h : Meets step ok s (es ++ fs)) : Meets step ok s es := by
  induction es generalizing s with
  | nil => exact trivial
  | cons e es ih => exact ⟨h.1, fun s' hs' => ih (h.2 s' hs')⟩

theorem Meets.ok_of_run {step : σ → ε → Option σ} {ok : σ → ε → Prop} {s s₁ : σ} {pre : List ε} {e : ε}
    {post : List ε} (h : Meets step ok s (pre ++ e :: post)) (hrun : run step s pre = some s₁) : ok s₁ e := by
  induction pre generalizing s with
  | nil =>
    obtain rfl := Option.some.inj hrun
    exact h.1
  | cons a pre ih =>
    rw [run_cons, Option.bind_eq_some_iff] at hrun
    obtain ⟨s₂, hs₂, hrun⟩ := hrun
    exact ih (h.2 s₂ hs₂) hrun

theorem run_preserves {step : σ → ε → Option σ} (inv : σ → Prop) {s s' : σ} (h : inv s)
    (hstep : ∀ s e s', inv s → step s e = some s' → inv s') {es : List ε} (hrun : run step s es = some s') :
    inv s' :=
  run_invariant inv h (fun s e s' hs (_ : True) => hstep s e s' hs) (meets_of_forall (fun _ _ => trivial) s es)
    hrun

theorem run_last_change {β : Type} {step : σ → ε → Option σ} {m : σ → β} {P : σ → Prop} (inv : σ → Prop)
    {s s' : σ} (h : inv s) (hinv : ∀ s e s', inv s → step s e = some s' → inv s')
    (hstep : ∀ s e s', inv s → step s e = some s' → m s' = m s ∨ P s') {es : List ε}
    (hrun : run step s es = some s') : m s' = m s ∨
      ∃ before after s₁, es = before ++ after ∧ run step s before = some s₁ ∧ P s₁ ∧ m s' = m s₁ := by
  induction es generalizing s with
  | nil =>
    obtain rfl := Option.some.inj hrun
    exact .inl rfl
  | cons e es ih =>
    rw [run_cons, Option.bind_eq_some_iff] at hrun
    obtain ⟨s₁, hs₁, hrun⟩ := hrun
    have hfirst : run step s [e] = some s₁ := by rw [run_cons, hs₁, Option.bind_some, run_nil]
    rcases ih (hinv s e s₁ h hs₁) hrun with hsame | ⟨before, after, s₂, rfl, hbefore, hP, hlast⟩
    · rcases hstep s e s₁ h hs₁ with hold | hP
      · exact .inl (hsame.trans hold)
      · exact .inr ⟨[e], es, s₁, rfl, hfirst, hP, hsame⟩
    · exact .inr ⟨e :: before, after, s₂, rfl, by rw [run_cons, hs₁, Option.bind_some, hbefore], hP, hlast⟩

/-- A step that meets `ok` keeps the good states, any other step out of them dooms what comes after it: the
end of a run tells whether all of its steps met `ok`. -/
theorem good_or_doomed {step : σ → ε → Option σ} {ok₀ ok : σ → ε → Prop} (inv good doomed : σ → Prop)
    {s s' : σ} (h : inv s) (hgood : good s)
    (hinv : ∀ s e s', inv s → ok₀ s e → step s e = some s' → inv s') {es : List ε}
    (hok : ∀ s e s', inv s → ok₀ s e → good s → ok s e → step s e = some s' → good s')
    (hbad : ∀ s e s', inv s → ok₀ s e → good s → ¬ ok s e → step s e = some s' → doomed s')
    (hdoomed : ∀ s e s', inv s → doomed s → step s e = some s' → doomed s') (hes : Meets step ok₀ s es)
    (hrun : run step s es = some s') :
    (Meets step ok s es → good s') ∧ (¬ Meets step ok s es → doomed s') := by
  induction es generalizing s with
  | nil =>
    obtain rfl := Option.some.inj hrun
    exact ⟨fun _ => hgood, fun hno => absurd trivial hno⟩
  | cons e es ih =>
    rw [run_cons, Option.bind_eq_some_iff] at hrun
    obtain ⟨s₁, hs₁, hrun⟩ := hrun
    have h₁ := hinv s e s₁ h hes.1 hs₁
    rw [meets_cons_iff hs₁]
    by_cases hse : ok s e
    · have hrest := ih h₁ (hok s e s₁ h hes.1 hgood hse hs₁) (hes.2 s₁ hs₁) hrun
      simpa only [hse, true_and] using hrest
    · refine ⟨fun hmeets => absurd hmeets.1 hse, fun _ => ?_⟩
      have hdoomed₁ := hbad s e s₁ h hes.1 hgood hse hs₁
      exact (run_invariant (fun s => inv s ∧ doomed s) ⟨h₁, hdoomed₁⟩
        (fun s e s' ⟨hs, hd⟩ ho hs' => ⟨hinv s e s' hs ho hs', hdoomed s e s' hs hd hs'⟩) (hes.2 s₁ hs₁) hrun).2

theorem doomed_of_not_meets {step : σ → ε → Option σ} {ok : σ → ε → Prop} (inv doomed : σ → Prop) {s s' : σ}
    (h : inv s) {es : List ε} (hok : ∀ e ∈ es, ∀ s s', inv s → ok s e → step s e = some s' → inv s')
    (hbad : ∀ e ∈ es, ∀ s s', inv s → ¬ ok s e → step s e = some s' → doomed s')
    (hdoomed : ∀ s e s', doomed s → step s e = some s' → doomed s') (hno : ¬ Meets step ok s es)
    (hrun : run step s es = some s') : doomed s' := by
  have hmem : Meets step (fun _ e => e ∈ es) s es := meets_of_forall_mem (fun _ he => he) s
  have hend := good_or_doomed (fun _ => True) inv doomed trivial h (fun _ _ _ _ _ _ => trivial)
    (fun s e s' _ he => hok e he s s') (fun s e s' _ he => hbad e he s s') (fun s e s' _ => hdoomed s e s')
    hmem hrun
  exact hend.2 hno

theorem Always.head {step : σ → ε → Option σ} {P : σ → Prop} {s : σ} {es : List ε}
    (h : Always step P s es) : P s := by
  cases es with
  | nil => exact h
  | cons e es => exact h.1

theorem Always.end_of_run {step : σ → ε → Option σ} {P : σ → Prop} {s s' : σ} {es : List ε}
    (h : Always step P s es) (hrun : run step s es = some s') : P s' := by
  induction es generalizing s with
  | nil =>
    obtain rfl := Option.some.inj hrun
    exact h
  | cons e es ih =>
    obtain ⟨-, s₁, hs₁, h⟩ := h
    rw [run_cons, hs₁, Option.bind_some] at hrun
    exact ih h hrun

theorem always_of_meets {step : σ → ε → Option σ} {ok : σ → ε → Prop} {P : σ → Prop}
    (inv : σ → Prop) (hP : ∀ s, inv s → P s) (hok : ∀ s e, inv s → ok s e → ∃ s', step s e = some s' ∧ inv s')
    {s : σ} (h : inv s) {es : List ε} (hes : Meets step ok s es) : Always step P s es := by
  induction es generalizing s with
  | nil => exact hP s h
  | cons e es ih =>
    obtain ⟨s', hs', h'⟩ := hok s e h hes.1
    exact ⟨hP s h, s', hs', ih h' (hes.2 s' hs')⟩

/-- When a step that does not meet `ok` ends outside `P`, the runs inside `P` are known exactly. -/
theorem always_iff_meets {step : σ → ε → Option σ} {ok : σ → ε → Prop} {P : σ → Prop}
    (inv : σ → Prop) (hP : ∀ s, inv s → P s) (hok : ∀ s e, inv s → ok s e → ∃ s', step s e = some s' ∧ inv s')
    (hno : ∀ s e s', inv s → ¬ ok s e → step s e = some s' → ¬ P s') {s : σ} (h : inv s)
    (es : List ε) : Always step P s es ↔ Meets step ok s es := by
  refine ⟨fun hall => ?_, always_of_meets inv hP hok h⟩
  induction es generalizing s with
  | nil => exact trivial
  | cons e es ih =>
    obtain ⟨-, s', hs', hrest⟩ := hall
    by_cases hse : ok s e
    · obtain ⟨s'', hs'', h''⟩ := hok s e h hse
      obtain rfl := Option.some.inj (hs''.symm.trans hs')
      exact (meets_cons_iff hs').2 ⟨hse, ih h'' hrest⟩
    · exact absurd hrest.head (hno s e s' h hse hs')

theorem always_iff_meets_of_run {step : σ → ε → Option σ} {ok : σ → ε → Prop} {P : σ → Prop}
    (inv : σ → Prop) (hP : ∀ s, inv s → P s) (hok : ∀ s e s', inv s → ok s e → step s e = some s' → inv s')
    (hno : ∀ s e s', inv s → ¬ ok s e → step s e = some s' → ¬ P s') {s s' : σ} (h : inv s)
    {es : List ε} (hrun : run step s es = some s') : Always step P s es ↔ Meets step ok s es := by
  induction es generalizing s with
  | nil => exact ⟨fun _ => trivial, fun _ => hP s h⟩
  | cons e es ih =>
    rw [run_cons, Option.bind_eq_some_iff] at hrun
    obtain ⟨s₁, hs₁, hrun⟩ := hrun
    rw [meets_cons_iff hs₁]
    constructor
    · rintro ⟨-, s₂, hs₂, hrest⟩
      obtain rfl := Option.some.inj (hs₁.symm.trans hs₂)
      have hse : ok s e := by
        by_contra hno'
        exact hno s e s₁ h hno' hs₁ hrest.head
      exact ⟨hse, (ih (hok s e s₁ h hse hs₁) hrun).1 hrest⟩
    · rintro ⟨hse, hrest⟩
      exact ⟨hP s h, s₁, hs₁, (ih (hok s e s₁ h hse hs₁) hrun).2 hrest⟩

/-- The number of steps of a run that do not meet `ok`. -/
def misses (step : σ → ε → Option σ) (ok : σ → ε → Prop) [∀ s e, Decidable (ok s e)] : σ → List ε → ℕ
  | _, [] => 0
  | s, e :: es => (if ok s e then 0 else 1) + (step s e).elim 0 fun s' => misses step ok s' es

theorem run_add_misses {step : σ → ε → Option σ} {ok : σ → ε → Prop} [∀ s e, Decidable (ok s e)] {μ : σ → ℕ}
    (inv : σ → Prop) (hinv : ∀ s e s', inv s → step s e = some s' → inv s')
    (hstep : ∀ s e s', inv s → step s e = some s' → μ s' + (if ok s e then 0 else 1) = μ s) {s s' : σ}
    (h : inv s) {es : List ε} (hrun : run step s es = some s') : μ s' + misses step ok s es = μ s := by
  induction es generalizing s with
  | nil =>
    obtain rfl := Option.some.inj hrun
    rfl
  | cons e es ih =>
    rw [run_cons, Option.bind_eq_some_iff] at hrun
    obtain ⟨s₁, hs₁, hrun⟩ := hrun
    have hrest := ih (hinv s e s₁ h hs₁) hrun
    have hthis := hstep s e s₁ h hs₁
    rw [misses, hs₁, Option.elim_some]
    omega

/-- Every event fits the state that the events before it lead to. -/
def Admits (fits : τ → ε → Prop) (next : τ → ε → τ) : τ → List ε → Prop
  | _, [] => True
  | t, e :: es => fits t e ∧ Admits fits next (next t e) es

theorem run_simulates {step : σ → ε → Option σ} {fits : τ → ε → Prop} {next : τ → ε → τ}
    (R : σ → τ → Prop)
    (hstep : ∀ s t e, R s t → fits t e → ∃ s', step s e = some s' ∧ R s' (next t e))
    {s : σ} {t : τ} (h : R s t) {es : List ε} (hfit : Admits fits next t es) :
    ∃ s', run step s es = some s' ∧ R s' (es.foldl next t) := by
  induction es generalizing s t with
  | nil => exact ⟨s, rfl, h⟩
  | cons e es ih =>
    obtain ⟨s', hs', h'⟩ := hstep s t e h hfit.1
    obtain ⟨s'', hs'', h''⟩ := ih h' hfit.2
    exact ⟨s'', by rw [run_cons, hs', Option.bind_some, hs''], h''⟩

/-! ### Forward simulation -/

def Reaches (step : σ → ε → Option σ) (s s' : σ) : Prop := ∃ es, run step s es = some s'

namespace Reaches
variable {step : σ → ε → Option σ} {s s' s'' : σ}

theorem refl (step : σ → ε → Option σ) (s : σ) : Reaches step s s := ⟨[], rfl⟩

theorem trans (h : Reaches step s s') (h' : Reaches step s' s'') : Reaches step s s'' := by
  obtain ⟨es, hes⟩ := h
  obtain ⟨fs, hfs⟩ := h'
  exact ⟨es ++ fs, (run_append_of_eq hes fs).trans hfs⟩

theorem of_step {e : ε} (h : step s e = some s') : Reaches step s s' :=
  ⟨[e], by rw [run_cons, h, Option.bind_some, run_nil]⟩

end Reaches

/-- When the second system can follow every step of the first one by a run, it can follow every run. -/
theorem run_reaches {ε' : Type} {step : σ → ε → Option σ} {step' : τ → ε' → Option τ} (R : σ → τ → Prop)
    (hstep : ∀ s t e s', R s t → step s e = some s' → ∃ t', Reaches step' t t' ∧ R s' t') {s s' : σ} {t : τ}
    (h : R s t) {es : List ε} (hrun : run step s es = some s') : ∃ t', Reaches step' t t' ∧ R s' t' := by
  refine run_preserves (fun s => ∃ t', Reaches step' t t' ∧ R s t') ⟨t, .refl step' t, h⟩ ?_ hrun
  rintro s e s' ⟨t', ht', hR⟩ hs'
  obtain ⟨t'', ht'', hR'⟩ := hstep s t' e s' hR hs'
  exact ⟨t'', ht'.trans ht'', hR'⟩

end NetDemo.Foundation
