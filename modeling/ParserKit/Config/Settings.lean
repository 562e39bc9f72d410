/-!
# Settings

How expressions are evaluated and how diagnostics are shown.
-/

namespace ParserKit

/-- What a name that is not in the store stands for. -/
inductive UnboundPolicy
  | error
  | zero
  deriving DecidableEq, Repr

/-- The policies by the words that select them. -/
def UnboundPolicy.ofName? : String → Option UnboundPolicy
  | "error" => some error
  | "zero" => some zero
  | _ => none

def UnboundPolicy.name : UnboundPolicy → String
  | error => "error"
  | zero => "zero"

structure EvaluationSettings where
  unbound : UnboundPolicy := .error
  /-- The width of integers; none is checked if this is zero. -/
  integerBits : Int := 64
  deriving DecidableEq, Repr

structure OutputSettings where
  color : Bool := true
  deriving DecidableEq, Repr

structure Settings where
  evaluation : EvaluationSettings := {}
  output : OutputSettings := {}
  deriving DecidableEq, Repr

end ParserKit
