import ParserKit.Config.Settings
import ParserKit.Toml.Document

/-!
# Loading settings

Settings are read from two tables of a configuration file, `evaluation` and
`output`.  A table or a key that is absent leaves the default, and keys that
have no meaning here are ignored.
-/

namespace ParserKit.Settings

open Toml (Table Value)

/-- Why a configuration gives no settings. -/
inductive Problem
  | unreadable (problem : Toml.Problem)
  /-- A section that is not a table. -/
  | notATable (kind : String)
  | badUnbound (given : Value)
  | badIntegerBits
  | badColor (given : Value)

/-- A message that shows a value, or the complaint that the value cannot be
shown. -/
def showing (given : Value) (message : String → String) : String :=
  match given.text with
  | .ok s => message s
  | .error (.excess e) => e.message
  | .error .tooDeep => ""

/-- What is said about a problem with the configuration at a path. -/
def Problem.message (path : String) : Problem → String
  | unreadable (.tooManyDigits digits) => (Decimal.Excess.reading digits).message
  | unreadable _ => "Invalid TOML"
  | notATable kind => "'" ++ kind ++ "' object has no attribute 'get'"
  | badUnbound given =>
      showing given fun s =>
        path ++ ": evaluation.unbound must be 'error' or 'zero', got " ++ s
  | badIntegerBits => path ++ ": evaluation.integer_bits must be a non-negative integer"
  | badColor given =>
      showing given fun s => path ++ ": output.color must be true or false, got " ++ s

/-- Whether a problem is told by its message: it is one with the file or with a value in it that
can be shown. -/
def Problem.isReported : Problem → Bool
  | unreadable .tooDeep => false
  | unreadable _ => true
  | notATable _ => false
  | badIntegerBits => true
  | badUnbound given => !given.isTooDeep
  | badColor given => !given.isTooDeep

def unboundOf (entries : Table) : Except Problem UnboundPolicy :=
  match Table.get? entries "unbound" with
  | none => .ok .error
  | some (.string name) =>
      match UnboundPolicy.ofName? name with
      | some policy => .ok policy
      | none => .error (.badUnbound (.string name))
  | some given => .error (.badUnbound given)

def integerBitsOf (entries : Table) : Except Problem Int :=
  match Table.get? entries "integer_bits" with
  | none => .ok 64
  | some (.integer bits) => if bits < 0 then .error .badIntegerBits else .ok bits
  | some _ => .error .badIntegerBits

def evaluationOf (t : Table) : Except Problem EvaluationSettings :=
  match Table.get? t "evaluation" with
  | none => .ok {}
  | some (.table entries) => do
      let unbound ← unboundOf entries
      let integerBits ← integerBitsOf entries
      return ⟨unbound, integerBits⟩
  | some other => .error (.notATable other.kind)

def outputOf (t : Table) : Except Problem OutputSettings :=
  match Table.get? t "output" with
  | none => .ok {}
  | some (.table entries) =>
      match Table.get? entries "color" with
      | none => .ok {}
      | some (.boolean color) => .ok ⟨color⟩
      | some given => .error (.badColor given)
  | some other => .error (.notATable other.kind)

def ofTable (t : Table) : Except Problem Settings := do
  let evaluation ← evaluationOf t
  let output ← outputOf t
  return ⟨evaluation, output⟩

/-- The settings of a configuration file with this content. -/
def load (content : String) : Except Problem Settings :=
  match Toml.read content with
  | .ok t => ofTable t
  | .error problem => .error (.unreadable problem)

end ParserKit.Settings
