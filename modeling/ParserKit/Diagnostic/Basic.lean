import ParserKit.Source.Location

/-!
# Diagnostics

A diagnostic reports one error: a code, a message, labels that point into the
source, and notes.
-/

namespace ParserKit

structure Label where
  span : Span
  message : String
  deriving DecidableEq, Repr

structure Diagnostic where
  code : String
  message : String
  labels : List Label
  notes : List String
  deriving DecidableEq, Repr

namespace Diagnostic

/-- Every diagnostic is an error. -/
def severity : String := "error"

/-- A diagnostic without notes; without a span it has no label either. -/
def report (code message : String) (span : Option Span) (label : String) : Diagnostic :=
  ⟨code, message, (span.map fun s => ⟨s, label⟩).toList, []⟩

def withNotes (d : Diagnostic) (notes : List String) : Diagnostic :=
  { d with notes := d.notes ++ notes }

/-- How several diagnostics are announced together. -/
def summary (ds : List Diagnostic) : String :=
  toString ds.length ++ " error(s): " ++ "; ".intercalate (ds.map (·.message))

end Diagnostic

end ParserKit
