import Mathlib
import ParserKit.Proofs.Pattern.Binary
import ParserKit.Proofs.Stack

/-!
# Frames of a pattern

A pattern takes 30 frames besides those of its groups.  Of these 25 are taken where
the last factor of the last alternative opens a group, and 15 where the first one
does: the stack has room for 38 groups inside one another wherever they stand, and
never for more than 66.  What a pattern is compiled to takes six frames for each of
its nodes that nest.
-/

namespace ParserKit.Pattern

open ParserKit.Parser

theorem fitsIn_basic : basic.FitsIn 5 14 :=
  ⟨by decide, ⟨by decide, by decide, ⟨by decide, fitsIn_satisfy _, fitsIn_ref _⟩,
    (fitsIn_satisfy _).of_le (by decide)⟩, by decide, (fitsIn_satisfy _).of_le (by decide)⟩

theorem fitsIn_factor : factor.FitsIn 5 16 := by
  have hstar : (Parser.map (char '*') some : Parser Rule (Option Char)).FitsIn 5 12 :=
    ⟨by decide, (fitsIn_satisfy _).of_le (by decide)⟩
  exact ⟨by decide, fitsIn_basic, hstar.optional (by decide) none⟩

theorem fitsIn_term : term.FitsIn 5 22 :=
  ⟨by decide, fitsIn_factor.of_le (by decide), fitsIn_factor.many (by decide)⟩

theorem fitsIn_expression : expression.FitsIn 5 30 := by
  have halternative : (discardLeft (char '|') term).FitsIn 5 24 :=
    ⟨by decide, (fitsIn_satisfy _).of_le (by decide), fitsIn_term⟩
  exact ⟨by decide, fitsIn_term.of_le (by decide), halternative.many (by decide)⟩

/-- How many groups may be open wherever they stand. -/
def roomForNesting : Nat := 38

/-- A run that opens no more groups than the stack has room for goes the same way on
the stack. -/
theorem expression_approximates (c : Cursor) :
    (expression.runWith (Grammar.rule grammar roomForNesting) c).Approximates
      (grammar.runOnStack expression c) := by
  have hrules : ∀ {α : Type} (r : Rule α), (grammar r).FitsIn 5 (25 + 5) := by
    intro α r
    cases r with
    | expression => exact fitsIn_expression
  have hexpression : expression.FitsIn 972 stackFrames :=
    fitsIn_expression.mono (by decide) (by decide)
  refine hexpression.runsWithin (fun r m hm c => ?_) c
  refine Grammar.rule_approximates_onStack hrules (by decide) ?_ r c
  rw [roomForNesting]
  omega

theorem charges_expression : expression.Charges 15 0 := by
  simp [expression, term, factor, basic, grouped, plain, discardLeft, discardRight,
    Parser.optional, many, char, satisfy, Charges, callFrames]

/-- The most groups that the stack may ever have room for. -/
def roomForGroups : Nat := 66

/-- Groups that open without end are cut off by the stack. -/
theorem runOnStack_approximates_of_groups (c : Cursor) :
    (grammar.runOnStack expression c).Approximates
      (expression.runWith (Grammar.rule grammar roomForGroups) c) := by
  have hrules : ∀ {α : Type} (r : Rule α), (grammar r).Charges 15 0 := by
    intro α r
    cases r with
    | expression => exact charges_expression
  refine onStack_runsWithin (fun r m hm c => ?_) expression charges_expression
    (Nat.le_refl stackFrames) c
  refine Grammar.rule_onStack_approximates_of_charges hrules ?_ r c
  rw [stackFrames] at hm
  rw [roomForGroups]
  omega

/-- A pattern that is compiled under a limit fits six frames for each node that it allows. -/
theorem fitsIn_of_compile {R : Type → Type} {w limit : Nat} {node : Node} {p : Parser R String}
    (h : compile limit node = .ok p) : p.FitsIn w (6 * limit) := by
  induction limit generalizing node p with
  | zero => simp [compile] at h
  | succ limit ih =>
      have hparts : ∀ {parts : List Node} {ps : List (Parser R String)},
          compileParts (compile limit) parts = .ok ps → ∀ p ∈ ps, p.FitsIn w (6 * limit) :=
        fun hps => forall_mem_of_compileParts hps fun _ _ => ih
      cases compile_succ_eq_ok_iff.1 h with
      | char s => exact Nat.le_add_left 6 (6 * limit)
      | concat hps => exact (FitsIn.sequenceOf (hparts hps) _).of_le (by omega)
      | alternation hps => exact (FitsIn.choiceOf (hparts hps)).of_le (by omega)
      | @star body q hbody =>
          have hlimit : limit ≠ 0 := by
            rintro rfl
            simp [compile] at hbody
          exact ⟨by simp only [callFrames]; omega, (ih hbody).many (by omega)⟩
      | group hbody => exact (ih hbody).of_le (by omega)

end ParserKit.Pattern
