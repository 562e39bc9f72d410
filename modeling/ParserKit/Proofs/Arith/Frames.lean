import Mathlib
import ParserKit.Proofs.Arith.Soundness
import ParserKit.Proofs.Stack

/-!
# Frames of an expression

An expression takes 72 frames besides those of its parentheses and signs.  Of these
57 are taken where the last operand of a chain in a chain in a chain opens a
parenthesis, which is the deepest place, and so the stack has room for sixteen
parentheses and signs inside one another wherever they stand.
-/

namespace ParserKit.Arith

open ParserKit.Parser

variable {w n : Nat}

theorem fitsIn_word {α : Type} {p : Parser Rule α} (h : p.FitsIn w 12)
    (build : α → Option Span → Node) : (token (located p build)).FitsIn w 20 :=
  FitsIn.token ⟨by decide, h.withLocation (by decide)⟩ (by decide)

theorem fitsIn_operand : operand.FitsIn 15 24 := by
  apply FitsIn.choiceOf
  intro p hp
  simp only [List.mem_cons, List.not_mem_nil, or_false] at hp
  rcases hp with rfl | rfl | rfl | rfl | rfl
  · exact ⟨by decide, by decide, ⟨by decide, fitsIn_symbol _, fitsIn_ref _⟩,
      (fitsIn_symbol _).of_le (by decide)⟩
  · exact (fitsIn_word (fitsIn_nat.of_le (by decide)) _).of_le (by decide)
  · exact (fitsIn_word fitsIn_ident _).of_le (by decide)
  · exact ⟨by decide, by decide, (fitsIn_symbol _).of_le (by decide),
      (fitsIn_ref _).of_le (by decide)⟩
  · exact ⟨by decide, (fitsIn_symbol _).of_le (by decide), (fitsIn_ref _).of_le (by decide)⟩

theorem fitsIn_stepOf {part : ArithParser} (h : part.FitsIn w n) (hn : 16 ≤ n) (sign : String)
    (op : Operator) : (stepOf sign part op).FitsIn w (n + 6) := by
  have hsigned : (discardLeft (symbol sign) part).FitsIn w (n + 2) :=
    ⟨Nat.le_add_left 2 n, (fitsIn_symbol sign).of_le hn, h⟩
  exact ⟨Nat.le_add_left 2 (n + 4), hsigned.withLocation (by omega)⟩

/-- A level adds sixteen frames to those of its parts. -/
theorem fitsIn_levelParser {part : ArithParser} (h : part.FitsIn w n) (hn : 16 ≤ n)
    (l : Level) : (levelParser l part).FitsIn w (n + 16) := by
  have hsteps : (stepsOf l part).FitsIn w (n + 8) := by
    apply FitsIn.choiceOf
    intro p hp
    obtain ⟨op, -, rfl⟩ := List.mem_map.1 hp
    exact fitsIn_stepOf h hn _ op
  exact ⟨Nat.le_add_left 2 (n + 14), h.of_le (Nat.le_add_right n 14),
    Nat.le_add_left 2 (n + 12), hsteps.many (by omega)⟩

theorem fitsIn_expression : expression.FitsIn 15 72 := by
  rw [expression_eq, term_eq, factor_eq]
  apply fitsIn_levelParser _ (by decide)
  apply fitsIn_levelParser _ (by decide)
  exact fitsIn_levelParser fitsIn_operand (by decide) .factor

/-- How many parentheses and signs may be open wherever they stand. -/
def roomForNesting : Nat := 16

/-- A run that opens no more parentheses and signs than the stack has room for goes
the same way on the stack. -/
theorem program_approximates (c : Cursor) :
    (program.runWith (Grammar.rule grammar roomForNesting) c).Approximates
      (grammar.runOnStack program c) := by
  have hrules : ∀ {α : Type} (r : Rule α), (grammar r).FitsIn 15 (57 + 15) := by
    intro α r
    cases r with
    | expression => exact fitsIn_expression
    | operand => exact fitsIn_operand.of_le (by decide)
  have hexpression : expression.FitsIn 938 995 := fitsIn_expression.mono (by decide) (by decide)
  have hprogram : program.FitsIn 938 stackFrames :=
    ⟨by decide, fitsIn_space.of_le (by decide), hexpression⟩
  refine hprogram.runsWithin (fun r m hm c => ?_) c
  refine Grammar.rule_approximates_onStack hrules (by decide) ?_ r c
  rw [roomForNesting]
  omega

end ParserKit.Arith
