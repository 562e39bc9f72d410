import ParserKit.Source.Location
import ParserKit.Text.Quoted

/-!
# Arithmetic trees

An expression has three levels of precedence.  Each level is a head followed by
a chain of steps, and each step is an operator with its right operand; a chain
nests to the right and ends in `done`.  Spans tell where a node was written and
do not count when trees are compared.

One type holds every node, also where the grammar would not put it, and
`foreign` stands for a value that is no arithmetic node at all.
-/

namespace ParserKit.Arith

inductive Level
  | expression
  | term
  | factor
  deriving DecidableEq, Repr

inductive Operator
  | add
  | subtract
  | multiply
  | divide
  | power
  deriving DecidableEq, Repr

inductive Node
  | identifier (name : String) (span : Option Span)
  | number (value : Int) (span : Option Span)
  | negate (operand : Node)
  | paren (body : Node)
  | chain (level : Level) (head tail : Node)
  | step (operator : Operator) (operand rest : Node) (span : Option Span)
  | done
  | foreign (kind : String)
  deriving DecidableEq, Repr

def Level.kind : Level → String
  | expression => "Expression"
  | term => "Term"
  | factor => "Factor"

def Operator.kind : Operator → String
  | add => "AddTail"
  | subtract => "SubTail"
  | multiply => "MulTail"
  | divide => "DivTail"
  | power => "ExpTail"

namespace Node

/-- The kind under which a node is shown. -/
def kind : Node → String
  | identifier _ _ => "Identifier"
  | number _ _ => "NumberLit"
  | negate _ => "Negate"
  | paren _ => "Paren"
  | chain level _ _ => level.kind
  | step operator _ _ _ => operator.kind
  | done => "Epsilon"
  | foreign kind => kind

/-- The same tree without its spans. -/
def eraseSpans : Node → Node
  | identifier name _ => identifier name none
  | number value _ => number value none
  | negate operand => negate operand.eraseSpans
  | paren body => paren body.eraseSpans
  | chain level head tail => chain level head.eraseSpans tail.eraseSpans
  | step operator operand rest _ => step operator operand.eraseSpans rest.eraseSpans none
  | done => done
  | foreign kind => foreign kind

/-- The steps of a chain, outermost first, and the node that ends it. -/
def steps : Node → List (Operator × Node × Option Span) × Node
  | step operator operand rest span =>
      let (more, stop) := rest.steps
      ((operator, operand, span) :: more, stop)
  | stop => ([], stop)

/-- The chain of a list of steps, nested to the right. -/
def ofSteps (steps : List (Operator × Node × Option Span)) : Node :=
  steps.foldr (fun s rest => step s.1 s.2.1 rest s.2.2) done

/-- Write a node behind `written`, as its kind with its named parts in
parentheses. -/
def writeAfter (written : String) : Node → String
  | identifier name _ => written ++ "Identifier(name=" ++ Quoted.text name ++ ")"
  | number value _ => written ++ "NumberLit(value=" ++ toString value ++ ")"
  | negate operand => operand.writeAfter (written ++ "Negate(operand=") ++ ")"
  | paren body => body.writeAfter (written ++ "Paren(expr=") ++ ")"
  | chain level head tail =>
      tail.writeAfter (head.writeAfter (written ++ level.kind ++ "(head=") ++ ", tail=") ++ ")"
  | step operator operand rest _ =>
      rest.writeAfter
        (operand.writeAfter (written ++ operator.kind ++ "(operand=") ++ ", rest=") ++ ")"
  | done => written ++ "Epsilon()"
  | foreign kind => written ++ kind

def text (node : Node) : String := node.writeAfter ""

end Node

end ParserKit.Arith
