import ParserKit.Parser.Run

/-!
# Parsers on the call stack

A parser holds frames of the call stack from its call to its answer, and the
parsers inside it run on the frames that it leaves.  Parts that run one after
the other take the same frames again, so the stack bounds how deep parsers stand
inside one another and not how many there are.

`Parser.onStack` puts a parser on a number of frames: a part for which too few
are left is the fault `tooDeep`, and a reference hands what is left to the rule
that it enters.  Such a parser is one like any other, over rules that know their
frames.
-/

namespace ParserKit

/-- A rule that is entered with a number of frames left. -/
structure Framed (R : Type → Type) (α : Type) where
  rule : R α
  frames : Nat

/-- The frames that are left for a parser: of the thousand of the stack three are
held by its callers.  A command holds about a dozen more, which are not counted. -/
def stackFrames : Nat := 997

namespace Parser

variable {R : Type → Type}

/-- The frames of a combinator: the call of the parser, and the function that runs
its parts. -/
def callFrames : Nat := 2

/-- The frames of a parser that asks its cursor: those of a combinator, and four
more until a cursor has moved or a location was made. -/
def cursorFrames : Nat := 6

/-- Take some of the frames and run on those that are left. -/
def taking {α : Type} (cost frames : Nat) (below : Nat → Parser R α) : Parser R α :=
  if cost ≤ frames then below (frames - cost) else raise .tooDeep

/-- The parser on this number of frames.  A reference takes one, and so does a
parser that is called in vain. -/
def onStack : {α : Type} → Parser R α → Nat → Parser (Framed R) α
  | _, item, n => taking cursorFrames n fun _ => item
  | _, accept tokenOf, n => taking cursorFrames n fun _ => accept tokenOf
  | _, literal s, n =>
      taking (if s.isEmpty then callFrames else cursorFrames) n fun _ => literal s
  | _, success a, n => taking callFrames n fun _ => success a
  | _, failure, n => taking callFrames n fun _ => failure
  | _, raise fault, n => taking 1 n fun _ => raise fault
  | _, map p f, n => taking callFrames n fun m => map (p.onStack m) f
  | _, convert p f, n => taking callFrames n fun m => convert (p.onStack m) f
  | _, bind p f, n => taking callFrames n fun m => bind (p.onStack m) fun a => (f a).onStack m
  | _, sequence p q combine, n =>
      taking callFrames n fun m => sequence (p.onStack m) (q.onStack m) combine
  | _, sequenceAll k τ parts combine, n =>
      taking callFrames n fun m => sequenceAll k τ (fun i => (parts i).onStack m) combine
  | _, orElse p q, n => taking callFrames n fun m => orElse (p.onStack m) (q.onStack m)
  | _, choice k alternatives, n =>
      taking callFrames n fun m => choice k fun i => (alternatives i).onStack m
  | _, oneOrMore p, n => taking callFrames n fun m => oneOrMore (p.onStack m)
  | _, currentRow, n => taking callFrames n fun _ => currentRow
  | _, currentCol, n => taking callFrames n fun _ => currentCol
  | _, currentLocation, n => taking cursorFrames n fun _ => currentLocation
  | _, ref rule, n => taking 1 n fun m => ref ⟨rule, m⟩

end Parser

namespace Grammar

variable {R : Type → Type}

/-- Each rule on the frames that it is entered with. -/
def onStack (grammar : Grammar R) : Grammar (Framed R) :=
  fun r => (grammar r.rule).onStack r.frames

/-- What a parser over the rules of a grammar does on the stack. -/
def runOnStack (grammar : Grammar R) {α : Type} (p : Parser R α) : Cursor → Outcome α :=
  run (onStack grammar) (p.onStack stackFrames)

end Grammar

/-- Run a parser that refers to no rule on the stack. -/
def Parser.runOnStack {α : Type} (p : Parser NoRule α) : Cursor → Outcome α :=
  NoRule.grammar.runOnStack p

end ParserKit
