import Mathlib

/-! # Computations that succeed or fail -/

namespace KernelSpec

variable {ε ε' α β : Type}

theorem map_eq_ok_iff {result : Except ε α} {f : α → β} {b : β} :
    result.map f = .ok b ↔ ∃ a, result = .ok a ∧ f a = b := by
  cases result <;> simp [Except.map]

theorem map_eq_error_iff {result : Except ε α} {f : α → β} {e : ε} :
    result.map f = .error e ↔ result = .error e := by
  cases result <;> simp [Except.map]

theorem mapError_eq_ok_iff {wrap : ε → ε'} {result : Except ε α} {a : α} :
    result.mapError wrap = .ok a ↔ result = .ok a := by
  cases result <;> simp [Except.mapError]

theorem mapError_eq_error_iff {wrap : ε → ε'} {result : Except ε α} {e : ε'} :
    result.mapError wrap = .error e ↔ ∃ cause, result = .error cause ∧ wrap cause = e := by
  cases result <;> simp [Except.mapError]

theorem ok_bind (a : α) (next : α → Except ε β) : (Except.ok a >>= next) = next a := rfl

theorem bind_eq_ok_iff {result : Except ε α} {next : α → Except ε β} {b : β} :
    (result >>= next) = .ok b ↔ ∃ a, result = .ok a ∧ next a = .ok b := by
  cases result <;> simp [bind, Except.bind]

end KernelSpec
