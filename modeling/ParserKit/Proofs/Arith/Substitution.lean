import ParserKit.Proofs.Arith.Agreement
import ParserKit.Proofs.Arith.Numerals

/-!
# Substitution

To bind a name to an integer is to write the integer, in parentheses, wherever
the name stands.  Both are checked once on the way out, and a minus sign in
front of either negates a value that has passed its check.  The labels of a
problem point to different places then, and the written tree nests deeper: where
it is stopped by the limit on nesting alone, the answers are not the same.
-/

namespace ParserKit.Arith

/-- The reasons are the same, except that where a step should stand, parentheses
may be met in the place of a name. -/
def Abort.Alike : Abort → Abort → Prop
  | .noOperand kind, .noOperand kind' => kind = kind' ∨ kind = "Identifier" ∧ kind' = "Paren"
  | reason, reason' => reason = reason'

def Stop.Alike : Stop → Stop → Prop
  | .reported problem, .reported problem' =>
      problem.code = problem'.code ∧ problem.message = problem'.message
  | .tooDeep, .tooDeep => True
  | .aborted reason, .aborted reason' => reason.Alike reason'
  | _, _ => False

/-- Two runs with the same value, or with stops alike.  The second may also run
out of depth, but only where `beyond` holds. -/
inductive Keeps (beyond : Prop) : Walk Int → Walk Int → Prop
  | value (v : Int) : Keeps beyond (.ok v) (.ok v)
  | stop {stop stop' : Stop} (h : stop.Alike stop') : Keeps beyond (.error stop) (.error stop')
  | tooDeep (run : Walk Int) (h : beyond) : Keeps beyond run (.error .tooDeep)

variable {beyond beyond' : Prop} {run run' : Walk Int}

theorem Abort.Alike.refl (reason : Abort) : reason.Alike reason := by
  cases reason with
  | noOperand kind => exact .inl rfl
  | _ => rfl

theorem Stop.Alike.refl (stop : Stop) : stop.Alike stop := by
  cases stop with
  | reported problem => exact ⟨rfl, rfl⟩
  | tooDeep => trivial
  | aborted reason => exact Abort.Alike.refl reason

theorem keeps_error (stop : Stop) : Keeps beyond (.error stop) (.error stop) :=
  .stop (Stop.Alike.refl stop)

theorem Keeps.refl (run : Walk Int) : Keeps beyond run run := by
  cases run with
  | error stop => exact keeps_error stop
  | ok v => exact .value v

theorem Keeps.mono (h : Keeps beyond run run') (himp : beyond → beyond') :
    Keeps beyond' run run' := by
  cases h with
  | value v => exact .value v
  | stop h => exact .stop h
  | tooDeep run h => exact .tooDeep run (himp h)

theorem Keeps.bind {next next' : Int → Walk Int} (h : Keeps beyond run run')
    (hnext : ∀ v, Keeps beyond (next v) (next' v)) :
    Keeps beyond (run >>= next) (run' >>= next') := by
  cases h with
  | value v => exact hnext v
  | stop h => exact .stop h
  | tooDeep run h => exact .tooDeep _ h

namespace Evaluator

variable {e : Evaluator} {x : String} {v : Int} {body : Node} {span : Option Span}

theorem ComesToCheck.paren (h : e.ComesToCheck v span body) :
    e.ComesToCheck v span (.paren body) := by
  refine comesToCheck_of_succ (Nat.succ_pos _) fun depth => ?_
  rw [walk]
  exact (h depth).imp_right fun hdeep => ⟨Nat.succ_lt_succ hdeep.1, hdeep.2⟩

section Walks

variable (e : Evaluator) (x : String) (v : Int)

/-- The evaluator with one more bound name. -/
def binding : Evaluator := ⟨e.settings, e.store.bind x v⟩

end Walks

end Evaluator

end ParserKit.Arith
