import ParserKit.Parser.Basic
import ParserKit.Text.Quoted

/-!
# How a parser is shown

A parser is shown by the name of its outermost combinator.  A reference to a
rule has no name, and the parser of a literal shows its text.
-/

namespace ParserKit.Parser

variable {R : Type → Type} {α : Type}

/-- The name of the outermost combinator. -/
def name : Parser R α → String
  | item => "item"
  | accept _ => "satisfy"
  | literal s => if s.isEmpty then "success" else "literal " ++ Quoted.text s
  | success _ => "success"
  | failure => "failure"
  | raise _ => "parser"
  | map _ _ => "map"
  | convert _ _ => "map"
  | bind _ _ => "bind"
  | sequence _ _ _ => "sequence"
  | sequenceAll _ _ _ _ => "sequence_all"
  | orElse _ _ => "or_else"
  | choice n _ => if n = 0 then "failure" else "choice"
  | oneOrMore _ => "repeat_one_or_more"
  | currentRow => "current_row"
  | currentCol => "current_col"
  | currentLocation => "current_location"
  | ref _ => ""

def nameText (name : String) : String := "<ParserOf " ++ name ++ ">"

def describe : Parser R α → String
  | ref _ => "<LazyParser>"
  | p => nameText p.name

end ParserKit.Parser
