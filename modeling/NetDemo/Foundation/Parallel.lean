import Mathlib.Data.List.Forall2

/-! Two lists that change in step with each other. -/

namespace NetDemo.Foundation
open List
variable {α β : Type} {R : α → β → Prop} {l : List α} {l' : List β}

theorem forall₂_eraseIdx (h : Forall₂ R l l') (i : ℕ) : Forall₂ R (l.eraseIdx i) (l'.eraseIdx i) := by
  induction h generalizing i with
  | nil => exact .nil
  | cons hab h ih =>
    cases i with
    | zero => exact h
    | succ i => exact .cons hab (ih i)

theorem forall₂_set_modify (h : Forall₂ R l l') {i : ℕ} {a' : α} {f : β → β}
    (hf : ∀ b, l'[i]? = some b → R a' (f b)) : Forall₂ R (l.set i a') (l'.modify i f) := by
  induction h generalizing i with
  | nil =>
    rw [set_nil, modify_nil]
    exact .nil
  | cons hab h ih =>
    cases i with
    | zero => exact .cons (hf _ rfl) h
    | succ i => exact .cons hab (ih hf)

theorem forall₂_append_one (h : Forall₂ R l l') {a : α} {b : β} (hab : R a b) :
    Forall₂ R (l ++ [a]) (l' ++ [b]) := rel_append h (.cons hab .nil)

theorem Forall₂.getElem? (h : Forall₂ R l l') {i : ℕ} {a : α} {b : β} (ha : l[i]? = some a)
    (hb : l'[i]? = some b) : R a b := by
  induction h generalizing i with
  | nil => cases ha
  | cons hab h ih =>
    cases i with
    | zero =>
      obtain rfl := Option.some.inj ha
      obtain rfl := Option.some.inj hb
      exact hab
    | succ i => exact ih ha hb

end NetDemo.Foundation
