import ParserKit.Numeral.Decimal
import ParserKit.Numeral.Shortest
import ParserKit.Text.Quoted
import ParserKit.Toml.Calendar

/-!
# Values of configuration files

A configuration file is a table: keys with values, in the order in which they
were first written.
-/

namespace ParserKit.Toml

inductive Value
  | boolean (b : Bool)
  | integer (v : Int)
  | float (x : Float)
  | string (s : String)
  | date (d : Date)
  | time (t : Time)
  | dateTime (d : Date) (t : Time) (offset : Option Offset)
  | array (items : List Value)
  | table (entries : List (String × Value))
  deriving Repr, Inhabited

abbrev Table := List (String × Value)

namespace Table

def get? (t : Table) (key : String) : Option Value := t.lookup key

/-- Change the value of a key in place, or add the key at the end. -/
def set : Table → String → Value → Table
  | [], key, v => [(key, v)]
  | (other, w) :: more, key, v =>
      if other = key then (key, v) :: more else (other, w) :: set more key v

end Table

namespace Value

/-- The name of the kind of a value. -/
def kind : Value → String
  | boolean _ => "bool"
  | integer _ => "int"
  | float _ => "float"
  | string _ => "str"
  | date _ => "datetime.date"
  | time _ => "datetime.time"
  | dateTime _ _ _ => "datetime.datetime"
  | array _ => "list"
  | table _ => "dict"

/-- Why a value cannot be shown. -/
inductive Unshown
  /-- An integer in it has too many digits. -/
  | excess (e : Decimal.Excess)
  /-- Arrays and tables nest too deeply in it. -/
  | tooDeep
  deriving DecidableEq, Repr

/-- The texts of the items of an array, up to the first that cannot be shown. -/
def itemTexts (shown : Value → Except Unshown String) :
    List Value → Except Unshown (List String)
  | [] => .ok []
  | item :: more => do
      let s ← shown item
      let texts ← itemTexts shown more
      return s :: texts

/-- The texts of the entries of a table, up to the first that cannot be shown. -/
def entryTexts (shown : Value → Except Unshown String) :
    List (String × Value) → Except Unshown (List String)
  | [] => .ok []
  | (key, v) :: more => do
      let s ← shown v
      let texts ← entryTexts shown more
      return (Quoted.text key ++ ": " ++ s) :: texts

/-- The text under which a value is shown, if no more than `depth` values stand inside one
another. -/
def textWithin : Nat → Value → Except Unshown String
  | 0, _ => .error .tooDeep
  | depth + 1, v =>
      match v with
      | boolean b => .ok (if b then "True" else "False")
      | integer v => (Decimal.write v).mapError .excess
      | float x => .ok (Shortest.text x)
      | string s => .ok (Quoted.text s)
      | date d => .ok d.text
      | time t => .ok t.text
      | dateTime d t offset => .ok (dateTimeText d t offset)
      | array items => do
          let texts ← itemTexts (textWithin depth) items
          return "[" ++ ", ".intercalate texts ++ "]"
      | table entries => do
          let texts ← entryTexts (textWithin depth) entries
          return "\x7b" ++ ", ".intercalate texts ++ "\x7d"

/-- How many values may stand inside one another in a value that is shown.  The
interpreter has room for a thousand frames; twenty are set aside for the command
below. -/
def showingLimit : Nat := 980

def text (v : Value) : Except Unshown String := v.textWithin showingLimit

/-- Whether nesting is what keeps a value from being shown. -/
def isTooDeep (v : Value) : Bool :=
  match v.text with
  | .error .tooDeep => true
  | _ => false

end Value

end ParserKit.Toml
