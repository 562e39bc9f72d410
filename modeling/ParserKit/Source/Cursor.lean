import ParserKit.Source.Location
import ParserKit.Text.Quoted

/-!
# Cursors

A cursor stands at one offset of a text and knows the location that it has
reached.  Moving makes a new cursor.  What can be seen through a cursor is its
location and the characters that remain; two cursors with the same view are
equal for every reader, whatever texts they stand in.
-/

namespace ParserKit

structure Cursor where
  text : Array Char
  offset : Nat
  location : Location
  deriving Repr

namespace Cursor

/-- The cursor before the first character of `text`. -/
def start (text : String) : Cursor :=
  ⟨text.toList.toArray, 0, .start⟩

/-- How many characters remain; an offset past the end leaves none. -/
def left (c : Cursor) : Nat := c.text.size - c.offset

def atEnd (c : Cursor) : Bool := c.text.size ≤ c.offset

def remaining (c : Cursor) : List Char := c.text.toList.drop c.offset

def rest (c : Cursor) : String := String.ofList c.remaining

/-- The next character and the cursor behind it, unless the text has ended. -/
def advance (c : Cursor) : Option (Char × Cursor) :=
  if h : c.offset < c.text.size then
    let ch := c.text[c.offset]
    some (ch, ⟨c.text, c.offset + 1, c.location.after ch⟩)
  else
    none

/-- All that a reader can learn from a cursor. -/
def view (c : Cursor) : Location × List Char := (c.location, c.remaining)

/-- A cursor as it is shown. -/
def describe (c : Cursor) : String :=
  "Cursor(" ++ c.location.text ++ ", " ++ Quoted.text c.rest ++ ")"

/-- Cursors are compared by what they show. -/
instance : BEq Cursor := ⟨fun c d => c.view == d.view⟩

instance : Hashable Cursor := ⟨fun c => hash (c.location, c.rest)⟩

theorem advance_eq_none_iff (c : Cursor) : c.advance = none ↔ c.text.size ≤ c.offset := by
  unfold advance
  split
  · simp; omega
  · simp; omega

theorem left_lt_of_advance {c d : Cursor} {ch : Char} (h : c.advance = some (ch, d)) :
    d.left < c.left := by
  unfold advance at h
  split at h
  · simp only [Option.some.injEq, Prod.mk.injEq] at h
    obtain ⟨_, rfl⟩ := h
    simp only [left]
    omega
  · simp at h

/-- What remains is the character read and what remains behind it. -/
theorem remaining_of_advance {c d : Cursor} {ch : Char} (h : c.advance = some (ch, d)) :
    c.remaining = ch :: d.remaining := by
  unfold advance at h
  split at h
  · rename_i hlt
    simp only [Option.some.injEq, Prod.mk.injEq] at h
    obtain ⟨rfl, rfl⟩ := h
    simp only [remaining]
    rw [List.drop_eq_getElem_cons (by simpa using hlt)]
    simp
  · simp at h

end Cursor

end ParserKit
