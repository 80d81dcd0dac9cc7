import Mathlib.Tactic.Common

/-!
# Calls that return or report an error

Taking a call in `Except` that has returned apart into its steps.
-/

namespace Fallible

variable {ε α β : Type}

theorem bind_eq_ok {x : Except ε α} {f : α → Except ε β} {b : β} :
    (x >>= f) = .ok b ↔ ∃ a, x = .ok a ∧ f a = .ok b := by
  rcases x with e | a
  · exact ⟨nofun, fun ⟨_, h, _⟩ => nomatch h⟩
  · constructor
    · intro h
      exact ⟨a, rfl, h⟩
    · rintro ⟨a', ha, h⟩
      rw [Except.ok.inj ha]
      exact h

theorem map_eq_ok {x : Except ε α} {f : α → β} {b : β} :
    x.map f = .ok b ↔ ∃ a, x = .ok a ∧ f a = b := by
  rcases x with e | a
  · exact ⟨nofun, fun ⟨_, h, _⟩ => nomatch h⟩
  · constructor
    · intro h
      exact ⟨a, rfl, Except.ok.inj h⟩
    · rintro ⟨a', ha, h⟩
      rw [Except.ok.inj ha, ← h]
      rfl

theorem mapError_eq_ok {ε' : Type} {x : Except ε α} {f : ε → ε'} {a : α} :
    x.mapError f = .ok a ↔ x = .ok a := by
  rcases x with e | a'
  · constructor <;> exact nofun
  · simp [Except.mapError]

end Fallible
