import ParserKit.Arith.Store
import ParserKit.Parser.Token
import ParserKit.Text.Quoted

/-!
# Definitions

A definition binds a name to an integer and is written `NAME=VALUE`, the value
perhaps behind a minus sign, without any blanks.
-/

namespace ParserKit

open ParserKit.Parser

structure Definition where
  name : String
  value : Int
  deriving DecidableEq, Repr

namespace Definition

/-- The token types of a name, the equals sign, the sign and the digits. -/
abbrev Parts : Fin 4 → Type
  | 0 => String
  | 1 => Char
  | 2 => String
  | 3 => Nat

/-- A definition from its parts; an empty sign is a plus. -/
def ofParts (name sign : String) (magnitude : Nat) : Definition :=
  ⟨name, if sign.isEmpty then magnitude else -magnitude⟩

def parser {R : Type → Type} : Parser R Definition :=
  sequenceAll 4 Parts
    (fun
      | 0 => ident
      | 1 => char '='
      | 2 => optionalString (literal "-")
      | 3 => nat)
    fun parts => ofParts (parts 0) (parts 2) (parts 3)

/-- Why a text is no definition. -/
inductive Problem
  | malformed (text : String)
  | unreadable (fault : Fault)
  deriving DecidableEq, Repr

/-- A text that is a definition from its start to its end. -/
def read (text : String) : Except Problem Definition :=
  match parser.run (Cursor.start text) with
  | .error fault => .error (.unreadable fault)
  | .ok (some (d, stop)) => if stop.atEnd then .ok d else .error (.malformed text)
  | .ok none => .error (.malformed text)

/-- Extend a store by definitions, the later ones over the earlier ones. -/
def extend : Store → List String → Except Problem Store
  | store, [] => .ok store
  | store, text :: more =>
      match read text with
      | .error problem => .error problem
      | .ok d => extend (store.bind d.name d.value) more

def storeOf (texts : List String) : Except Problem Store := extend Store.empty texts

/-- What is wrong with a definition that is malformed. -/
def complaint (text : String) : String := "expected NAME=INTEGER, got " ++ Quoted.text text

end Definition

end ParserKit
