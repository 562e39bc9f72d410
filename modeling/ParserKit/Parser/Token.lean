import ParserKit.Parser.Run
import ParserKit.Text.CharClass

/-!
# Characters, blanks and tokens

The parsers that grammars start from: single characters, names and numbers,
and tokens that swallow the blanks on both sides.
-/

namespace ParserKit.Parser

open CharClass

variable {R : Type → Type} {α : Type}

def char (c : Char) : Parser R Char := satisfy (· == c)

/-- Only a text of one character is found by comparing single characters. -/
def charOf (s : String) : Parser R Char := satisfy fun c => s.toList == [c]

def ofClass (k : CharClass) : Parser R Char := satisfy k.contains

def letter : Parser R Char := ofClass .letter

def digit : Parser R Char := ofClass .digit

def upper : Parser R Char := ofClass .upper

def lower : Parser R Char := ofClass .lower

def alphanum : Parser R Char := ofClass .alphanum

/-- Any run of blanks. -/
def space : Parser R Unit := void (many (ofClass .space))

/-- Skip the blanks on both sides. -/
def token (p : Parser R α) : Parser R α := discardRight (discardLeft space p) space

def symbol (s : String) : Parser R String := token (literal s)

/-- A letter followed by letters and digits. -/
def ident : Parser R String :=
  sequence letter (many alphanum) fun c cs => String.ofList (c :: cs)

/-- The value of a run of digits. -/
def natOfDigits (digits : List Char) : Except Fault Nat :=
  match Decimal.read digits with
  | .ok n => .ok n
  | .error _ => .error (.tooManyDigits digits.length)

def nat : Parser R Nat := convert (oneOrMore digit) natOfDigits

def identifier : Parser R String := token ident

def natural : Parser R Nat := token nat

/-- A token with the locations before and behind it. -/
structure Located (α : Type) where
  token : α
  start : Location
  stop : Location
  deriving DecidableEq, Repr

/-- The token types of a location, a token and a location. -/
abbrev LocatedParts (α : Type) : Fin 3 → Type
  | 0 => Location
  | 1 => α
  | 2 => Location

def withLocation (p : Parser R α) : Parser R (Located α) :=
  sequenceAll 3 (LocatedParts α)
    (fun
      | 0 => currentLocation
      | 1 => p
      | 2 => currentLocation)
    fun tokens => ⟨tokens 1, tokens 0, tokens 2⟩

end ParserKit.Parser
