/-!
# Character classes

The six classes that names, numbers and blanks are made of.  They know ASCII
only.  A class is asked of a text: a range of characters holds of every text
that lies between its ends in the order of texts, and a text is blank if it
occurs in the list of blanks.  On a text of one character this is the class of
that character.
-/

namespace ParserKit

inductive CharClass
  | alphanum
  | digit
  | letter
  | lower
  | space
  | upper
  deriving DecidableEq, Repr

namespace CharClass

/-- The characters that separate tokens. -/
def blanks : List Char := [' ', '\t', '\n', '\r']

/-- The order of texts compares characters from the left, and a text comes
before those that continue it. -/
def textLe : List Char → List Char → Bool
  | [], _ => true
  | _ :: _, [] => false
  | a :: as, b :: bs => a < b || (a == b && textLe as bs)

def textBetween (low high : Char) (s : List Char) : Bool :=
  textLe [low] s && textLe s [high]

/-- Whether the text `part` stands somewhere in `whole`. -/
def occursIn (part : List Char) : List Char → Bool
  | [] => part.isEmpty
  | c :: cs => part.isPrefixOf (c :: cs) || occursIn part cs

def holds : CharClass → List Char → Bool
  | upper, s => textBetween 'A' 'Z' s
  | lower, s => textBetween 'a' 'z' s
  | letter, s => textBetween 'A' 'Z' s || textBetween 'a' 'z' s
  | digit, s => textBetween '0' '9' s
  | alphanum, s =>
      (textBetween 'A' 'Z' s || textBetween 'a' 'z' s) || textBetween '0' '9' s
  | space, s => occursIn s blanks

def isUpper (c : Char) : Bool := 'A' ≤ c && c ≤ 'Z'

def isLower (c : Char) : Bool := 'a' ≤ c && c ≤ 'z'

def isLetter (c : Char) : Bool := isUpper c || isLower c

def isDigit (c : Char) : Bool := '0' ≤ c && c ≤ '9'

def isAlphanum (c : Char) : Bool := isLetter c || isDigit c

def isSpace (c : Char) : Bool := blanks.contains c

/-- The class of a single character. -/
def contains : CharClass → Char → Bool
  | upper => isUpper
  | lower => isLower
  | letter => isLetter
  | digit => isDigit
  | alphanum => isAlphanum
  | space => isSpace

/-- The name by which a class is asked for. -/
def name : CharClass → String
  | alphanum => "is_alphanum"
  | digit => "is_digit"
  | letter => "is_letter"
  | lower => "is_lower"
  | space => "is_space"
  | upper => "is_upper"

/-- The classes in the order of their names. -/
def all : List CharClass := [alphanum, digit, letter, lower, space, upper]

/-- The classes that hold of a text, in the order of their names. -/
def classesOf (s : List Char) : List CharClass := all.filter (·.holds s)

end CharClass

end ParserKit
