import Mathlib.Tactic.Common

/-! A computation with the log of what it touched. -/

namespace NetDemo.Foundation
variable {ε α β : Type}

structure Traced (ε α : Type) where
  log : List ε
  val : α

namespace Traced

instance : Monad (Traced ε) where
  pure a := ⟨[], a⟩
  bind t f := ⟨t.log ++ (f t.val).log, (f t.val).val⟩

abbrev looks (e : ε) (a : α) : Traced ε α := ⟨[e], a⟩

@[simp] theorem val_pure (a : α) : (pure a : Traced ε α).val = a := rfl

@[simp] theorem val_bind (t : Traced ε α) (f : α → Traced ε β) : (t >>= f).val = (f t.val).val := rfl

@[simp] theorem val_ite (c : Prop) [Decidable c] (t u : Traced ε α) :
    (if c then t else u).val = if c then t.val else u.val := apply_ite val c t u

/-- Everything in the log satisfies `P`. -/
def Logs (P : ε → Prop) (t : Traced ε α) : Prop := ∀ e ∈ t.log, P e

variable {P : ε → Prop}

theorem Logs.pure (a : α) : Logs P (pure a) := nofun

theorem Logs.bind {t : Traced ε α} {f : α → Traced ε β} (h : Logs P t) (hf : Logs P (f t.val)) :
    Logs P (t >>= f) := by
  intro e he
  rcases List.mem_append.1 he with he | he
  · exact h e he
  · exact hf e he

theorem logs_looks {e : ε} {a : α} (he : P e) : Logs P (looks e a) :=
  fun _ hmem => List.mem_singleton.1 hmem ▸ he

theorem Logs.looks {e : ε} {a : α} {f : α → Traced ε β} (he : P e) (hf : Logs P (f a)) :
    Logs P (Traced.looks e a >>= f) :=
  Logs.bind (logs_looks he) hf

end Traced
end NetDemo.Foundation
