import ParserKit.Diagnostic.Basic
import ParserKit.Text.Lines

/-!
# Rendering diagnostics

A diagnostic is shown as a headline, a block for each label and a line for each
note.  A block names the place, shows the source line if there is one, puts
carets under a span that stays on its line, and closes with the label's message.

A rendering is a list of fragments, texts and changes of color.  Without color
the changes are left out.
-/

namespace ParserKit

inductive Paint
  | red
  | bold
  | blue
  | reset
  deriving DecidableEq, Repr

/-- The terminal sequence of a change of color. -/
def Paint.code : Paint → String
  | red => "\x1b[1;31m"
  | bold => "\x1b[1m"
  | blue => "\x1b[1;34m"
  | reset => "\x1b[0m"

inductive Fragment
  | text (s : String)
  | paint (p : Paint)
  deriving DecidableEq, Repr

namespace Fragment

def write (color : Bool) : Fragment → String
  | text s => s
  | paint p => if color then p.code else ""

def writeAll (color : Bool) (fragments : List Fragment) : String :=
  String.join (fragments.map (write color))

/-- Lines with line feeds between them. -/
def joinLines : List (List Fragment) → List Fragment
  | [] => []
  | [line] => line
  | line :: more => line ++ text "\n" :: joinLines more

end Fragment

namespace Diagnostic

open Fragment

/-- A number at the right end of four columns. -/
def gutter (n : Int) : String :=
  let numeral := toString n
  "".pushn ' ' (4 - numeral.length) ++ numeral

def headline (d : Diagnostic) : List Fragment :=
  [paint .red, text (severity ++ "[" ++ d.code ++ "]"), paint .reset,
    paint .bold, text (": " ++ d.message), paint .reset]

/-- The blue column left of the source, with a mark in it. -/
def margin (mark : String) : List Fragment :=
  [text "  ", paint .blue, text mark, paint .reset]

/-- The line of a source by its number, counted from one. -/
def sourceLine? (lines : List (List Char)) (row : Int) : Option String :=
  if row < 1 then none else lines[row.toNat - 1]?.map String.ofList

/-- The carets under a span, at least one. -/
def carets (span : Span) : String :=
  "".pushn '^' (max 1 (span.stop.col - span.start.col).toNat)

/-- The blanks before the first column of a span. -/
def indent (span : Span) : String := "".pushn ' ' (span.start.col - 1).toNat

def labelLines (lines : List (List Char)) (label : Label) : List (List Fragment) :=
  let span := label.span
  let place := margin "-->" ++ [text (" " ++ span.text)]
  let rule := margin "   |"
  let source :=
    match sourceLine? lines span.start.row with
    | some line => [margin (gutter span.start.row ++ " |") ++ [text (" " ++ line)]]
    | none => []
  let marks :=
    if span.start.row = span.stop.row then
      [margin "   |" ++
        [text (" " ++ indent span), paint .red, text (carets span), paint .reset]]
    else
      []
  let message :=
    if label.message.isEmpty then
      []
    else
      [margin "   |" ++
        [text "   ", paint .red, text label.message, paint .reset]]
  [place, rule] ++ source ++ marks ++ message

def noteLine (note : String) : List Fragment :=
  margin "=" ++ [text (" note: " ++ note)]

/-- The fragments of a diagnostic, shown against a source if there is one. -/
def fragments (d : Diagnostic) (source : Option String) : List Fragment :=
  let lines := match source with
    | some s => Lines.split s.toList
    | none => []
  joinLines ([d.headline] ++ d.labels.flatMap (labelLines lines) ++ d.notes.map noteLine)

def render (color : Bool) (d : Diagnostic) (source : Option String) : String :=
  writeAll color (d.fragments source)

end Diagnostic

end ParserKit
