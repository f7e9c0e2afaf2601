import NetDemo.Foundation.Transition

/-! Transition systems whose steps use something up. Every run of such a system is short, and where it
cannot go on it has come to its end. -/

namespace NetDemo.Foundation
variable {σ ε : Type} {step : σ → ε → Option σ} {s s' : σ} {es : List ε}

def Stuck (step : σ → ε → Option σ) (s : σ) : Prop := ∀ e, step s e = none

/-- A step inside `inv` stays there and uses up some of `μ`. -/
structure Decreases (step : σ → ε → Option σ) (inv : σ → Prop) (μ : σ → ℕ) : Prop where
  keeps : ∀ s e s', inv s → step s e = some s' → inv s'
  lt : ∀ s e s', inv s → step s e = some s' → μ s' < μ s

theorem Stuck.of_forall_some (h : ∀ e s', step s e ≠ some s') : Stuck step s := fun e => by
  cases he : step s e with
  | none => rfl
  | some s' => exact absurd he (h e s')

theorem exists_step_of_not_stuck (h : ¬ Stuck step s) : ∃ e s', step s e = some s' := by
  by_contra hno
  exact h (.of_forall_some fun e s' he => hno ⟨e, s', he⟩)

namespace Decreases
variable {inv : σ → Prop} {μ : σ → ℕ}

theorem run_keeps (hd : Decreases step inv μ) (h : inv s) (hrun : run step s es = some s') : inv s' :=
  run_preserves inv h hd.keeps hrun

theorem length_le (hd : Decreases step inv μ) (h : inv s) (hrun : run step s es = some s') :
    es.length + μ s' ≤ μ s := by
  induction es generalizing s with
  | nil =>
    obtain rfl := Option.some.inj hrun
    exact Nat.le_of_eq (Nat.zero_add _)
  | cons e es ih =>
    rw [run_cons, Option.bind_eq_some_iff] at hrun
    obtain ⟨s₁, hs₁, hrun⟩ := hrun
    have hlt := hd.lt s e s₁ h hs₁
    have hle := ih (hd.keeps s e s₁ h hs₁) hrun
    rw [List.length_cons]
    omega

theorem exists_stuck (hd : Decreases step inv μ) (h : inv s) :
    ∃ es s', run step s es = some s' ∧ Stuck step s' := by
  induction hm : μ s using Nat.strongRecOn generalizing s with
  | ind m ih =>
    by_cases hs : Stuck step s
    · exact ⟨[], s, rfl, hs⟩
    · obtain ⟨e, s₁, hs₁⟩ := exists_step_of_not_stuck hs
      obtain ⟨es, s', hrun, hstuck⟩ := ih (μ s₁) (hm ▸ hd.lt s e s₁ h hs₁) (hd.keeps s e s₁ h hs₁) rfl
      exact ⟨e :: es, s', by rw [run_cons, hs₁, Option.bind_some, hrun], hstuck⟩

end Decreases

theorem set_split {α : Type} {l : List α} {i : ℕ} {a : α} (h : l[i]? = some a) :
    ∃ pre post, l = pre ++ a :: post ∧ ∀ b, l.set i b = pre ++ b :: post := by
  obtain ⟨hi, rfl⟩ := List.getElem?_eq_some_iff.mp h
  refine ⟨l.take i, l.drop (i + 1), ?_, fun b => ?_⟩
  · rw [List.getElem_cons_drop hi, List.take_append_drop]
  · rw [List.set_eq_take_append_cons_drop, if_pos hi]

end NetDemo.Foundation
