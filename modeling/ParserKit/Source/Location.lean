/-!
# Places in a source text

A location is a row and a column, both counted from one.  A span runs from a
start location up to, and not including, an end location of one named text.
Rows and columns are integers, because a cursor may be started at any place.
-/

namespace ParserKit

structure Location where
  row : Int
  col : Int
  deriving DecidableEq, Repr, Hashable

namespace Location

/-- The place where every text starts. -/
def start : Location := ⟨1, 1⟩

/-- The place behind one character: a line feed opens the next row, and any
other character moves one column on. -/
def after (place : Location) (c : Char) : Location :=
  if c = '\n' then ⟨place.row + 1, 1⟩ else ⟨place.row, place.col + 1⟩

def text (place : Location) : String :=
  toString place.row ++ ":" ++ toString place.col

/-- Rows count first, columns second. -/
def before (left right : Location) : Bool :=
  decide (left.row < right.row ∨ left.row = right.row ∧ left.col < right.col)

/-- The next column of the same row. -/
def nextCol (place : Location) : Location := ⟨place.row, place.col + 1⟩

end Location

structure Span where
  file : String
  start : Location
  stop : Location
  deriving DecidableEq, Repr

namespace Span

/-- The name of a text that was not read from a file. -/
def inputName : String := "<input>"

def between (start stop : Location) : Span := ⟨inputName, start, stop⟩

/-- A span is announced by its file and its start. -/
def text (span : Span) : String :=
  span.file ++ ":" ++ span.start.text

end Span

end ParserKit
