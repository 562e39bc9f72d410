import ParserKit.Diagnostic.Basic
import ParserKit.Pattern.Grammar

/-!
# Compiling patterns

A pattern becomes a parser of the text that it matches.  Chains of
concatenations and of alternatives become one parser each.  Repetition takes as
much as it can and gives nothing back, and of several alternatives the first
that matches is taken.

A star over a pattern that can match nothing would repeat for ever, so a
pattern text that holds one is refused.
-/

namespace ParserKit.Pattern

open ParserKit.Parser

/-- Why a tree is not a pattern that can be worked on. -/
inductive TreeError
  | notAPattern (kind : String)
  | tooDeep
  deriving DecidableEq, Repr

def TreeError.message : TreeError → String
  | notAPattern kind => "not a regex node: " ++ kind
  | tooDeep => ""

/-- How deep nodes may nest; the links of a chain do not nest. -/
def nestingLimit : Nat := 1000

/-- Whether all parts pass a test, asked from the left up to the first that does
not. -/
def allParts (test : Node → Except TreeError Bool) : List Node → Except TreeError Bool
  | [] => .ok true
  | part :: more =>
      match test part with
      | .ok true => allParts test more
      | outcome => outcome

/-- Whether some part passes a test, asked from the left up to the first that
does. -/
def anyPart (test : Node → Except TreeError Bool) : List Node → Except TreeError Bool
  | [] => .ok false
  | part :: more =>
      match test part with
      | .ok false => anyPart test more
      | outcome => outcome

/-- Whether a pattern can match without taking a character. -/
def matchesEmpty : Nat → Node → Except TreeError Bool
  | 0, _ => .error .tooDeep
  | depth + 1, node =>
      match node with
      | .char _ => .ok false
      | .concat _ _ => allParts (matchesEmpty depth) node.concatSpine
      | .alternation _ _ => anyPart (matchesEmpty depth) node.alternationSpine
      | .star _ => .ok true
      | .group body => matchesEmpty depth body
      | .foreign kind _ => .error (.notAPattern kind)

/-- The first result of a search through several parts. -/
def firstFound (search : Node → Except TreeError (Option Node)) :
    List Node → Except TreeError (Option Node)
  | [] => .ok none
  | part :: more =>
      match search part with
      | .ok none => firstFound search more
      | outcome => outcome

/-- The first starred pattern whose body can match nothing. -/
def emptyRepeat : Nat → Node → Except TreeError (Option Node)
  | 0, _ => .error .tooDeep
  | depth + 1, node =>
      match node with
      | .star body =>
          match matchesEmpty depth body with
          | .error e => .error e
          | .ok true => .ok (some node)
          | .ok false => emptyRepeat depth body
      | .group body => emptyRepeat depth body
      | .concat _ _ => firstFound (emptyRepeat depth) node.concatSpine
      | .alternation _ _ => firstFound (emptyRepeat depth) node.alternationSpine
      | .char _ => .ok none
      | .foreign _ _ => .ok none

/-- The character that a single-character node holds, as a text. -/
def charText {R : Type → Type} (s : String) : Parser R String :=
  accept fun c => if s.toList = [c] then some s else none

/-- The texts of several matches as one. -/
def joined (matched : List String) : String := String.join matched

/-- Compile all parts of a chain. -/
def compileParts {R : Type → Type} (compile : Node → Except TreeError (Parser R String)) :
    List Node → Except TreeError (List (Parser R String))
  | [] => .ok []
  | part :: more =>
      match compile part with
      | .error e => .error e
      | .ok p =>
          match compileParts compile more with
          | .error e => .error e
          | .ok ps => .ok (p :: ps)

/-- The parser of the text that a pattern matches. -/
def compile {R : Type → Type} : Nat → Node → Except TreeError (Parser R String)
  | 0, _ => .error .tooDeep
  | depth + 1, node =>
      match node with
      | .char s => .ok (charText s)
      | .concat _ _ =>
          match compileParts (compile depth) node.concatSpine with
          | .error e => .error e
          | .ok parts => .ok (sequenceOf parts joined)
      | .alternation _ _ =>
          match compileParts (compile depth) node.alternationSpine with
          | .error e => .error e
          | .ok alternatives => .ok (choiceOf alternatives)
      | .star body =>
          match compile depth body with
          | .error e => .error e
          | .ok p => .ok (map (many p) joined)
      | .group body => compile depth body
      | .foreign kind _ => .error (.notAPattern kind)

def tooDeepProblem : Diagnostic :=
  .report "E201" "regular expression is nested too deeply" none ""

/-- The diagnostic for a text that stops being a pattern at a cursor. -/
def malformed (text : String) (stopped : Cursor) : Diagnostic :=
  let place := stopped.location
  let span : Span := ⟨"<pattern>", place, place.nextCol⟩
  let label := if stopped.atEnd then "pattern ends here" else "unexpected character"
  let problem :=
    Diagnostic.report "E200" ("malformed regular expression " ++ Quoted.text text) span label
  if text.isEmpty then
    problem.withNotes ["the empty pattern is not a regular expression"]
  else
    problem

/-- The diagnostic for a pattern that would repeat an empty match. -/
def endless (text : String) : Diagnostic :=
  (Diagnostic.report "E202"
    (Quoted.text text ++ " repeats a sub-pattern that can match nothing") none "").withNotes
    ["a star over an empty match never stops repeating"]

/-- The parser of a pattern that was read.  Its tree is made of pattern nodes
only, so all that can stop its compilation is nesting. -/
def compileTree {R : Type → Type} (text : String) (tree : Node) :
    Except Diagnostic (Parser R String) :=
  match emptyRepeat nestingLimit tree, compile nestingLimit tree with
  | .ok none, .ok p => .ok p
  | .ok (some _), .ok _ => .error (endless text)
  | _, _ => .error tooDeepProblem

/-- The parser of a pattern text, or the problem with it. -/
def compileText {R : Type → Type} (text : String) : Except Diagnostic (Parser R String) :=
  match readAt text with
  | .error _ => .error tooDeepProblem
  | .ok ⟨none, stopped⟩ => .error (malformed text stopped)
  | .ok ⟨some tree, _⟩ => compileTree text tree

end ParserKit.Pattern
