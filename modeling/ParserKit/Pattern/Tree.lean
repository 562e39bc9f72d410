import ParserKit.Text.Quoted

/-!
# Trees of patterns

A pattern matches single characters, patterns one behind the other, one of two
patterns, or a pattern as often as it goes; a group is a pattern in
parentheses.  A single-character node holds a text, and a text of any other
length matches nothing.  `foreign` stands for a value that is no pattern; it
has the name of its kind and the text under which it is shown.
-/

namespace ParserKit.Pattern

inductive Node
  | char (s : String)
  | concat (left right : Node)
  | alternation (left right : Node)
  | star (body : Node)
  | group (body : Node)
  | foreign (kind text : String)
  deriving DecidableEq, Repr

/-- The two kinds of node that form chains. -/
inductive Link
  | concat
  | alternation
  deriving DecidableEq, Repr

namespace Node

def join : Link → Node → Node → Node
  | .concat => concat
  | .alternation => alternation

/-- The kind under which a node is shown. -/
def kind : Node → String
  | char _ => "CharNode"
  | concat _ _ => "Concat"
  | alternation _ _ => "Alternation"
  | star _ => "Repeat"
  | group _ => "Group"
  | foreign kind _ => kind

/-- The parts of a chain of concatenations that nests to the right. -/
def concatSpine : Node → List Node
  | concat left right => left :: right.concatSpine
  | node => [node]

/-- The parts of a chain of alternatives that nests to the right. -/
def alternationSpine : Node → List Node
  | alternation left right => left :: right.alternationSpine
  | node => [node]

/-- Nest a first node and those behind it to the right. -/
def nest (link : Link) : Node → List Node → Node
  | first, [] => first
  | first, second :: more => join link first (nest link second more)

/-- Write a node behind `written`, as its kind with its named parts in
parentheses. -/
def writeAfter (written : String) : Node → String
  | char s => written ++ "CharNode(char=" ++ Quoted.text s ++ ")"
  | concat left right =>
      right.writeAfter (left.writeAfter (written ++ "Concat(left=") ++ ", right=") ++ ")"
  | alternation left right =>
      right.writeAfter (left.writeAfter (written ++ "Alternation(left=") ++ ", right=") ++ ")"
  | star body => body.writeAfter (written ++ "Repeat(node=") ++ ")"
  | group body => body.writeAfter (written ++ "Group(node=") ++ ")"
  | foreign _ text => written ++ text

def text (node : Node) : String := node.writeAfter ""

end Node

end ParserKit.Pattern
