import Mathlib.Tactic.Basic

/-!
# Steps that may end in a problem

Of two steps one behind the other, the first or the second ends in the problem, and both have given
something if there is none.
-/

namespace ParserKit

section Bind

variable {ε α β : Type} {x : Except ε α} {f : α → Except ε β}

theorem except_bind_eq_ok {b : β} : (x >>= f) = .ok b ↔ ∃ a, x = .ok a ∧ f a = .ok b := by
  cases x <;> simp [bind, Except.bind]

theorem except_bind_eq_error {problem : ε} :
    (x >>= f) = .error problem ↔ x = .error problem ∨ ∃ a, x = .ok a ∧ f a = .error problem := by
  cases x <;> simp [bind, Except.bind]

end Bind

section Pair

variable {ε α β γ : Type} {first : Except ε α} {second : Except ε β} {f : α → β → γ}

theorem except_pair_eq_ok {c : γ} :
    (do let a ← first; let b ← second; return f a b : Except ε γ) = .ok c ↔
      ∃ a b, first = .ok a ∧ second = .ok b ∧ f a b = c := by
  simp only [except_bind_eq_ok]
  constructor
  · rintro ⟨a, ha, b, hb, h⟩
    exact ⟨a, b, ha, hb, Except.ok.inj h⟩
  · rintro ⟨a, b, ha, hb, rfl⟩
    exact ⟨a, ha, b, hb, rfl⟩

/-- A problem with a pair is a problem with one of its parts. -/
theorem except_pair_eq_error {e : ε}
    (h : (do let a ← first; let b ← second; return f a b : Except ε γ) = .error e) :
    first = .error e ∨ second = .error e := by
  rcases except_bind_eq_error.1 h with hfirst | ⟨_, -, h⟩
  · exact .inl hfirst
  · rcases except_bind_eq_error.1 h with hsecond | ⟨_, -, h⟩
    · exact .inr hsecond
    · cases h

end Pair

end ParserKit
