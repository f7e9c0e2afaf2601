import Mathlib.Logic.Relation
import Mathlib.Order.Basic

/-! Threads that hold locks and wait for locks. -/

namespace NetDemo.Foundation
open Relation
variable {T L ρ : Type}

/-- `t` wants a lock that it does not hold, but `t'` does. -/
def WaitsFor (wants : T → Option L) (holds : T → L → Prop) (t t' : T) : Prop :=
  ∃ l, wants t = some l ∧ ¬ holds t l ∧ holds t' l

/-- Some threads wait for each other in a cycle. -/
def Deadlocked (wants : T → Option L) (holds : T → L → Prop) : Prop :=
  ∃ t, TransGen (WaitsFor wants holds) t t

/-- Threads that hold a lock only want lower ones. -/
def Ranked [Preorder ρ] (wants : T → Option L) (holds : T → L → Prop) (rank : L → ρ) : Prop :=
  ∀ t l l', holds t l → wants t = some l' → ¬ holds t l' → rank l' < rank l

variable {wants : T → Option L} {holds : T → L → Prop}

theorem Ranked.descends [Preorder ρ] {rank : L → ρ} (h : Ranked wants holds rank) {t t' : T}
    (hpath : TransGen (WaitsFor wants holds) t t') :
    ∃ l l', wants t = some l ∧ ¬ holds t l ∧ holds t' l' ∧ rank l' ≤ rank l := by
  induction hpath with
  | single hwait =>
    obtain ⟨l, hwants, hno, hholds⟩ := hwait
    exact ⟨l, l, hwants, hno, hholds, le_rfl⟩
  | tail _ hwait ih =>
    obtain ⟨l, l₁, hwants, hno, hholds₁, hle⟩ := ih
    obtain ⟨l₂, hwants₂, hno₂, hholds₂⟩ := hwait
    exact ⟨l, l₂, hwants, hno, hholds₂, (h _ l₁ l₂ hholds₁ hwants₂ hno₂).le.trans hle⟩

theorem Ranked.not_deadlocked [Preorder ρ] {rank : L → ρ} (h : Ranked wants holds rank) :
    ¬ Deadlocked wants holds := by
  rintro ⟨t, hcycle⟩
  obtain ⟨l, l', hwants, hno, hholds, hle⟩ := h.descends hcycle
  exact lt_irrefl _ ((h t l' l hholds hwants hno).trans_le hle)

theorem deadlocked_of_pair {t t' : T} (h : WaitsFor wants holds t t') (h' : WaitsFor wants holds t' t) :
    Deadlocked wants holds := ⟨t, .tail (.single h) h'⟩

end NetDemo.Foundation
