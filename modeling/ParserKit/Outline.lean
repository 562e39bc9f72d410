import ParserKit.Arith.Tree
import ParserKit.Pattern.Tree

/-!
# Outlines of trees

A tree is laid out line by line: its kind, and below it each part, indented by
one step, with the part's own outline two steps in.  A text or a number stands
on the line of its name.  The outline follows chains link by link, so a long
chain is as deep as it is long, and an outline that is too deep is none.
-/

namespace ParserKit

namespace Outline

/-- How deep an outline may nest.  The interpreter has room for a thousand frames;
twenty are set aside for the command below and for the printing of a line above. -/
def nestingLimit : Nat := 980

/-- A line at a depth; each step of depth is two blanks. -/
def line (depth : Nat) (s : String) : String := "".pushn ' ' (2 * depth) ++ s

end Outline

open Outline

/-- The lines of an arithmetic tree at a depth, unless they nest deeper than
`limit`. -/
def Arith.Node.outlineWithin : Nat → Nat → Node → Option (List String)
  | 0, _, _ => none
  | _ + 1, depth, .identifier name _ =>
      some [line depth "Identifier", line (depth + 1) ("name: " ++ Quoted.text name)]
  | _ + 1, depth, .number value _ =>
      some [line depth "NumberLit", line (depth + 1) ("value: " ++ toString value)]
  | limit + 1, depth, .negate operand =>
      match operand.outlineWithin limit (depth + 2) with
      | none => none
      | some inner => some (line depth "Negate" :: line (depth + 1) "operand:" :: inner)
  | limit + 1, depth, .paren body =>
      match body.outlineWithin limit (depth + 2) with
      | none => none
      | some inner => some (line depth "Paren" :: line (depth + 1) "expr:" :: inner)
  | limit + 1, depth, .chain level head tail =>
      match head.outlineWithin limit (depth + 2), tail.outlineWithin limit (depth + 2) with
      | some first, some second =>
          some (line depth level.kind :: line (depth + 1) "head:" ::
            (first ++ line (depth + 1) "tail:" :: second))
      | _, _ => none
  | limit + 1, depth, .step operator operand rest _ =>
      match operand.outlineWithin limit (depth + 2), rest.outlineWithin limit (depth + 2) with
      | some first, some second =>
          some (line depth operator.kind :: line (depth + 1) "operand:" ::
            (first ++ line (depth + 1) "rest:" :: second))
      | _, _ => none
  | _ + 1, depth, .done => some [line depth "Epsilon"]
  | _ + 1, depth, .foreign kind => some [line depth kind]

def Arith.Node.outline (node : Node) : Option (List String) :=
  node.outlineWithin nestingLimit 0

/-- The lines of a pattern tree at a depth, unless they nest deeper than
`limit`. -/
def Pattern.Node.outlineWithin : Nat → Nat → Node → Option (List String)
  | 0, _, _ => none
  | _ + 1, depth, .char s =>
      some [line depth "CharNode", line (depth + 1) ("char: " ++ Quoted.text s)]
  | limit + 1, depth, .concat left right =>
      match left.outlineWithin limit (depth + 2), right.outlineWithin limit (depth + 2) with
      | some first, some second =>
          some (line depth "Concat" :: line (depth + 1) "left:" ::
            (first ++ line (depth + 1) "right:" :: second))
      | _, _ => none
  | limit + 1, depth, .alternation left right =>
      match left.outlineWithin limit (depth + 2), right.outlineWithin limit (depth + 2) with
      | some first, some second =>
          some (line depth "Alternation" :: line (depth + 1) "left:" ::
            (first ++ line (depth + 1) "right:" :: second))
      | _, _ => none
  | limit + 1, depth, .star body =>
      match body.outlineWithin limit (depth + 2) with
      | none => none
      | some inner => some (line depth "Repeat" :: line (depth + 1) "node:" :: inner)
  | limit + 1, depth, .group body =>
      match body.outlineWithin limit (depth + 2) with
      | none => none
      | some inner => some (line depth "Group" :: line (depth + 1) "node:" :: inner)
  | _ + 1, depth, .foreign kind text => some [line depth (kind ++ ": " ++ text)]

def Pattern.Node.outline (node : Node) : Option (List String) :=
  node.outlineWithin nestingLimit 0

end ParserKit
