import Mathlib.Algebra.Ring.Int.Defs
import ParserKit.Arith.Evaluate

/-!
# The walk over a tree

What a walk does at each kind of node, as one equation apiece, and what its
arithmetic comes to: the bounds of a width and the rounded quotient.
-/

namespace ParserKit.Arith

theorem widthLimit_eq_pow (bits : Int) : widthLimit bits = 2 ^ (bits.toNat - 1) := by
  have hexponent : (bits - 1).toNat = bits.toNat - 1 := by omega
  rw [widthLimit, hexponent, Nat.one_shiftLeft]
  push_cast
  rfl

theorem fits_iff (bits v : Int) :
    fits bits v = true ↔ -2 ^ (bits.toNat - 1) ≤ v ∧ v < 2 ^ (bits.toNat - 1) := by
  rw [fits, widthLimit_eq_pow, Bool.and_eq_true, decide_eq_true_iff, decide_eq_true_iff]

/-- The quotient is the exact one without its fraction. -/
theorem truncatingDiv_eq_tdiv (lhs rhs : Int) : truncatingDiv lhs rhs = lhs.tdiv rhs := by
  have hnonneg : ∀ n : Nat, ¬ Int.ofNat n < 0 := fun n => Int.not_lt.2 (Int.natCast_nonneg n)
  have hneg : ∀ n : Nat, Int.negSucc n < 0 := Int.negSucc_lt_zero
  rw [truncatingDiv]
  cases lhs with
  | ofNat m =>
      cases rhs with
      | ofNat n => exact if_pos (propext (by simp only [hnonneg]))
      | negSucc n => exact if_neg (by simp only [hnonneg, hneg]; simp)
  | negSucc m =>
      cases rhs with
      | ofNat n => exact if_neg (by simp only [hnonneg, hneg]; simp)
      | negSucc n => exact if_pos (propext (by simp only [hneg]))

/-- How many levels of nodes a walk enters at most; steps of one chain stand
side by side. -/
def Node.nesting : Node → Nat
  | .identifier _ _ | .number _ _ | .foreign _ => 1
  | .negate operand => operand.nesting + 1
  | .paren body => body.nesting + 1
  | .chain _ head tail => max head.nesting tail.nesting + 1
  | .step _ operand rest _ => max operand.nesting rest.nesting
  | .done => 0

namespace Evaluator

variable (e : Evaluator) (depth : Nat)

/-- One step of a chain, from the value reached so far to the next one. -/
def takeStep (reached : Int) (operator : Operator) (operand : Node) (span : Option Span) :
    Walk Int := do
  let rhs ← e.walk depth operand
  let result ← apply operator reached rhs span
  e.checked result span

theorem walk_zero (node : Node) : e.walk 0 node = .error .tooDeep := by
  rw [walk]

theorem walk_negate_number (v : Int) (span : Option Span) :
    e.walk (depth + 1) (.negate (.number v span)) = e.checked (-v) span := by
  rw [walk]

theorem walk_negate {operand : Node} (h : ∀ v span, operand ≠ .number v span) :
    e.walk (depth + 1) (.negate operand) =
      e.walk depth operand >>= fun v => e.checked (-v) none := by
  rw [walk]
  · cases e.walk depth operand <;> rfl
  · exact h

theorem walk_chain (level : Level) (head tail : Node) :
    e.walk (depth + 1) (.chain level head tail) =
      e.walk depth head >>= fun v => e.walkSteps depth v tail := by
  rw [walk]
  cases e.walk depth head <;> rfl

theorem walkSteps_step (reached : Int) (operator : Operator) (operand rest : Node)
    (span : Option Span) :
    e.walkSteps depth reached (.step operator operand rest span) =
      e.takeStep depth reached operator operand span >>= fun next =>
        e.walkSteps depth next rest := by
  rw [walkSteps, takeStep]
  rcases e.walk depth operand with stop | rhs
  · rfl
  · simp only [bind, Except.bind]
    rcases apply operator reached rhs span with stop | result
    · rfl
    · simp only
      cases e.checked result span <;> rfl

end Evaluator

end ParserKit.Arith
