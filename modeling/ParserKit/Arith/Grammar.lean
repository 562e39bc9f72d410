import ParserKit.Arith.Tree
import ParserKit.Parser.Stack
import ParserKit.Parser.Token

/-!
# The grammar of arithmetic

An expression is a chain of terms under plus and minus, a term a chain of
factors under times and divide, a factor a chain of operands under the power
sign.  An operand is an expression in parentheses, a number, a name, or an
operand behind a sign; plus as a sign leaves no node.  Blanks may stand before,
between and behind all tokens.

A chain is read as a flat run of steps and then nested to the right, so its
length does not count as nesting.
-/

namespace ParserKit.Arith

open ParserKit.Parser

/-- The two rules that are referred to from inside operands. -/
inductive Rule : Type → Type
  | expression : Rule Node
  | operand : Rule Node

abbrev ArithParser := Parser Rule Node

def spanOf {α : Type} (found : Located α) : Span := .between found.start found.stop

/-- A token with the span of its characters. -/
def located {α : Type} (p : Parser Rule α) (build : α → Option Span → Node) : ArithParser :=
  map (withLocation p) fun found => build found.token (some (spanOf found))

/-- One operator with its right operand. -/
abbrev Step := Operator × Node × Option Span

/-- An operator and its right operand; the span covers both. -/
def stepOf (sign : String) (operand : ArithParser) (operator : Operator) : Parser Rule Step :=
  map (withLocation (discardLeft (symbol sign) operand)) fun found =>
    (operator, found.token, some (spanOf found))

/-- Any number of steps, as a chain. -/
def chainOf (steps : List (Parser Rule Step)) : ArithParser :=
  map (many (choiceOf steps)) Node.ofSteps

def numberOperand : ArithParser := token (located nat fun n => .number n)

def nameOperand : ArithParser := token (located ident .identifier)

def parenOperand : ArithParser :=
  map (discardRight (discardLeft (symbol "(") (ref .expression)) (symbol ")")) .paren

def minusOperand : ArithParser := map (discardLeft (symbol "-") (ref .operand)) .negate

def plusOperand : ArithParser := discardLeft (symbol "+") (ref .operand)

def operand : ArithParser :=
  choiceOf [parenOperand, numberOperand, nameOperand, minusOperand, plusOperand]

def operandTail : ArithParser := chainOf [stepOf "^" operand .power]

def factor : ArithParser := sequence operand operandTail (.chain .factor)

def factorTail : ArithParser :=
  chainOf [stepOf "*" factor .multiply, stepOf "/" factor .divide]

def term : ArithParser := sequence factor factorTail (.chain .term)

def termTail : ArithParser := chainOf [stepOf "+" term .add, stepOf "-" term .subtract]

def expression : ArithParser := sequence term termTail (.chain .expression)

/-- An expression that may have blanks before it. -/
def program : ArithParser := discardLeft space expression

def grammar : Grammar Rule
  | _, .expression => expression
  | _, .operand => operand

/-- Where reading a text ended: with the tree of the whole text, or at the place
where no expression goes on, which is the start if nothing was read. -/
structure Reading where
  tree : Option Node
  stopped : Cursor

def readAt (text : String) : Except Fault Reading :=
  let start := Cursor.start text
  match grammar.runOnStack program start with
  | .error fault => .error fault
  | .ok none => .ok ⟨none, start⟩
  | .ok (some (tree, stop)) => .ok ⟨if stop.atEnd then some tree else none, stop⟩

/-- The tree of a text that is an expression as a whole. -/
def read (text : String) : Except Fault (Option Node) :=
  (readAt text).map (·.tree)

end ParserKit.Arith
