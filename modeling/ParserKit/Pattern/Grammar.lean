import ParserKit.Parser.Stack
import ParserKit.Parser.Token
import ParserKit.Pattern.Tree

/-!
# The grammar of patterns

An expression is one or more terms with bars between them, a term one or more
factors, a factor a basic pattern with at most one star, and a basic pattern an
expression in parentheses or any character other than a parenthesis, a star or
a bar.  Terms and expressions nest to the right.
-/

namespace ParserKit.Pattern

open ParserKit.Parser

/-- The rule that is referred to from inside groups. -/
inductive Rule : Type → Type
  | expression : Rule Node

abbrev PatternParser := Parser Rule Node

def specials : List Char := ['(', ')', '*', '|']

def isPlain (c : Char) : Bool := !specials.contains c

def plain : PatternParser := map (satisfy isPlain) fun c => .char (String.singleton c)

def grouped : PatternParser :=
  map (discardRight (discardLeft (char '(') (ref .expression)) (char ')')) .group

def basic : PatternParser := orElse grouped plain

/-- A star behind a basic pattern repeats it. -/
def starred (body : Node) : Option Char → Node
  | some _ => .star body
  | none => body

def factor : PatternParser :=
  sequence basic (optional (map (char '*') some) none) starred

def term : PatternParser := sequence factor (many factor) (.nest .concat)

def expression : PatternParser :=
  sequence term (many (discardLeft (char '|') term)) (.nest .alternation)

def grammar : Grammar Rule
  | _, .expression => expression

/-- Where reading a pattern ended: with the tree of the whole text, or at the
place where no pattern goes on, which is the start if nothing was read. -/
structure Reading where
  tree : Option Node
  stopped : Cursor

def readAt (text : String) : Except Fault Reading :=
  let start := Cursor.start text
  match grammar.runOnStack expression start with
  | .error fault => .error fault
  | .ok none => .ok ⟨none, start⟩
  | .ok (some (tree, stop)) => .ok ⟨if stop.atEnd then some tree else none, stop⟩

/-- The tree of a text that is a pattern as a whole. -/
def read (text : String) : Except Fault (Option Node) :=
  (readAt text).map (·.tree)

end ParserKit.Pattern
