/-
# Computations that may fail

What a sequence of two computations in `Except` ends with, by what each of them does.
-/
import Mathlib.Tactic.TypeStar

namespace Basis

variable {ε α β : Type*} {x : Except ε α}

theorem bind_eq_ok {f : α → Except ε β} {b : β} : x.bind f = .ok b ↔ ∃ a, x = .ok a ∧ f a = .ok b := by
  cases x <;> simp [Except.bind]

theorem bind_eq_error {f : α → Except ε β} {e : ε} :
    x.bind f = .error e ↔ x = .error e ∨ ∃ a, x = .ok a ∧ f a = .error e := by
  cases x <;> simp [Except.bind]

theorem eq_ok_of_toOption {a : α} (h : x.toOption = some a) : x = .ok a := by
  cases x with
  | error e => cases h
  | ok b => exact congrArg Except.ok (Option.some.inj h)

end Basis
