import ParserKit.Arith.Grammar
import ParserKit.Arith.Store
import ParserKit.Config.Settings
import ParserKit.Diagnostic.Basic
import ParserKit.Numeral.Double

/-!
# Evaluation

A tree is evaluated over a store.  A chain starts from the value of its head
and takes its steps from left to right, so `10 - 3 - 2` is `(10 - 3) - 2`
although the tree nests to the right.  Every literal, bound value, negation and
step has to fit the width of the settings, and the first problem met is the one
reported; a literal under a minus sign is checked behind the sign, so that the
least integer can be written.
-/

namespace ParserKit.Arith

/-- Why evaluation gives no answer at all. -/
inductive Abort
  /-- The text could not be read. -/
  | unreadable (fault : Fault)
  /-- A message would hold an integer of too many digits. -/
  | tooManyDigits
  /-- The settings ask for a negative width. -/
  | negativeWidth
  /-- A node that has no value of its own. -/
  | notEvaluable (kind : String)
  /-- A node that stands for a step and has no operator. -/
  | notAnOperator (kind : String)
  /-- A node that stands for a step and has no operand. -/
  | noOperand (kind : String)
  deriving DecidableEq, Repr

def Abort.message : Abort → String
  | unreadable fault => fault.message
  | tooManyDigits => Decimal.Excess.writing.message
  | negativeWidth => "negative shift count"
  | notEvaluable kind => "cannot evaluate " ++ kind ++ " on its own"
  | notAnOperator kind => "unknown operator node " ++ kind
  | noOperand kind => "'" ++ kind ++ "' object has no attribute 'operand'"

inductive Evaluation
  | value (v : Int)
  | failed (problem : Diagnostic)
  deriving DecidableEq, Repr

/-- What ends a walk over a tree early. -/
inductive Stop
  | reported (problem : Diagnostic)
  | tooDeep
  | aborted (reason : Abort)
  deriving DecidableEq, Repr

abbrev Walk (α : Type) := Except Stop α

structure Evaluator where
  settings : EvaluationSettings := {}
  store : Store := []
  deriving DecidableEq, Repr

/-- The quotient rounded toward zero. -/
def truncatingDiv (lhs rhs : Int) : Int :=
  let quotient : Int := (lhs.natAbs / rhs.natAbs : Nat)
  if (lhs < 0) = (rhs < 0) then quotient else -quotient

/-- Division is undefined for a zero divisor only. -/
def divide (lhs rhs : Int) : Option Int :=
  if rhs = 0 then none else some (truncatingDiv lhs rhs)

/-- An integer inside a message. -/
def writeInt (v : Int) : Walk String :=
  match Decimal.write v with
  | .ok s => .ok s
  | .error _ => .error (.aborted .tooManyDigits)

def report {α : Type} (code message : String) (span : Option Span) (label : String) :
    Walk α :=
  .error (.reported (.report code message span label))

/-- The least integer that is too large for a width. -/
def widthLimit (bits : Int) : Int := (1 <<< (bits - 1).toNat : Nat)

def fits (bits v : Int) : Bool := -widthLimit bits ≤ v && v < widthLimit bits

def tooDeepProblem : Diagnostic :=
  (Diagnostic.report "E105" "expression is nested too deeply" none "").withNotes
    ["reduce the nesting of parentheses or unary signs"]

/-- How deep nodes may nest; the steps of a chain do not nest.  The interpreter has
room for a thousand frames, of which the callers of a walk and the check at its end
take six.  A name takes one frame more for its look-up, and a problem two or three
for its report; the limit does not count them, so a tree that nests nearly as deep
as the limit is walked here where the interpreter may give up. -/
def walkLimit : Nat := 994

namespace Evaluator

/-- A value that has to fit the width. -/
def checked (e : Evaluator) (v : Int) (span : Option Span) : Walk Int :=
  let bits := e.settings.integerBits
  if bits = 0 then
    .ok v
  else if bits < 0 then
    .error (.aborted .negativeWidth)
  else if fits bits v then
    .ok v
  else
    match writeInt v with
    | .error stop => .error stop
    | .ok numeral =>
        report "E103" ("value " ++ numeral ++ " does not fit in " ++ toString bits ++ " bits")
          span "overflows here"

/-- The value of a name: the bound one, or what the policy says. -/
def nameValue (e : Evaluator) (name : String) (span : Option Span) : Walk Int :=
  match e.store.value? name with
  | some v => e.checked v span
  | none =>
      match e.settings.unbound with
      | .zero => .ok 0
      | .error =>
          report "E101" ("unbound identifier '" ++ name ++ "'") span "not defined"

/-- The integer part of a power of doubles. -/
def power (base exponent : Int) (span : Option Span) : Walk Int :=
  match Double.power base exponent with
  | .value v => .ok v
  | .zeroToNegative =>
      report "E102" "zero cannot be raised to a negative power" span
        "negative exponent of zero"
  | .tooLarge => do
      let baseText ← writeInt base
      let exponentText ← writeInt exponent
      report "E104" (baseText ++ " ^ " ++ exponentText ++ " is not representable") span ""

/-- One operator on the values of both sides; the width is checked elsewhere. -/
def apply (operator : Operator) (lhs rhs : Int) (span : Option Span) : Walk Int :=
  match operator with
  | .add => .ok (lhs + rhs)
  | .subtract => .ok (lhs - rhs)
  | .multiply => .ok (lhs * rhs)
  | .divide =>
      match divide lhs rhs with
      | some quotient => .ok quotient
      | none => report "E102" "division by zero" span "divisor is zero"
  | .power => power lhs rhs span

mutual

/-- The value of a node, with `depth` more levels of nodes below it allowed. -/
def walk (e : Evaluator) : Nat → Node → Walk Int
  | 0, _ => .error .tooDeep
  | _ + 1, .number v span => e.checked v span
  | _ + 1, .identifier name span => e.nameValue name span
  | depth + 1, .negate operand =>
      match operand with
      | .number v span => e.checked (-v) span
      | _ =>
          match walk e depth operand with
          | .error stop => .error stop
          | .ok v => e.checked (-v) none
  | depth + 1, .paren body => walk e depth body
  | depth + 1, .chain _ head tail =>
      match walk e depth head with
      | .error stop => .error stop
      | .ok v => walkSteps e depth v tail
  | _ + 1, node => .error (.aborted (.notEvaluable node.kind))

/-- Take the steps of a chain from the value reached so far. -/
def walkSteps (e : Evaluator) : Nat → Int → Node → Walk Int
  | _, reached, .done => .ok reached
  | depth, reached, .step operator operand rest span =>
      match walk e depth operand with
      | .error stop => .error stop
      | .ok rhs =>
          match apply operator reached rhs span with
          | .error stop => .error stop
          | .ok result =>
              match e.checked result span with
              | .error stop => .error stop
              | .ok next => walkSteps e depth next rest
  | depth, _, .negate operand =>
      match walk e depth operand with
      | .error stop => .error stop
      | .ok _ => .error (.aborted (.notAnOperator "Negate"))
  | _, _, node => .error (.aborted (.noOperand node.kind))

end

/-- What a walk comes to as an answer. -/
def answer : Walk Int → Except Abort Evaluation
  | .ok v => .ok (.value v)
  | .error (.reported problem) => .ok (.failed problem)
  | .error .tooDeep => .ok (.failed tooDeepProblem)
  | .error (.aborted reason) => .error reason

def evaluate (e : Evaluator) (tree : Node) : Except Abort Evaluation :=
  answer (e.walk walkLimit tree)

/-- The diagnostic for a text that stops being an expression at a cursor. -/
def malformed (stopped : Cursor) : Diagnostic :=
  let place := stopped.location
  let span := Span.between place place.nextCol
  if stopped.offset = 0 then
    .report "E100" "not a valid arithmetic expression" span "expected an expression"
  else
    (Diagnostic.report "E100" "not a valid arithmetic expression" span
      "unexpected input").withNotes ["parsing stopped at " ++ place.text]

def evaluateText (e : Evaluator) (text : String) : Except Abort Evaluation :=
  match readAt text with
  | .error .tooDeep => .ok (.failed tooDeepProblem)
  | .error fault => .error (.unreadable fault)
  | .ok ⟨none, stopped⟩ => .ok (.failed (malformed stopped))
  | .ok ⟨some tree, _⟩ => e.evaluate tree

end Evaluator

end ParserKit.Arith
