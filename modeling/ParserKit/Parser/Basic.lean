import ParserKit.Numeral.Decimal
import ParserKit.Source.Cursor

/-!
# Parsers

A parser is a description: which characters it takes, how its parts follow one
another, and which token it builds.  `Parser R α` builds tokens of type `α` and
may refer to the rules of a grammar, which are named by `R`.  What a parser
does at a cursor is said by `Parser.runWith`.
-/

namespace ParserKit

/-- Why a parser gives up instead of answering that its input does not match. -/
inductive Fault
  /-- A repeated parser succeeded at this place and consumed nothing. -/
  | emptyRepetition (place : Location)
  /-- The parser has no meaning of its own. -/
  | undefined
  /-- Rules refer to rules without end, or too deeply. -/
  | tooDeep
  /-- A run of so many digits is no number. -/
  | tooManyDigits (digits : Nat)
  /-- A function on tokens does not accept the token that it was given. -/
  | refused (reason : String)
  deriving DecidableEq, Repr

def Fault.message : Fault → String
  | emptyRepetition place => "repeated parser consumed nothing at " ++ place.text
  | undefined => ""
  | tooDeep => ""
  | tooManyDigits digits => (Decimal.Excess.reading digits).message
  | refused reason => reason

/-- Running a parser ends in a fault, in no match, or in a token and the cursor
behind it. -/
abbrev Outcome (α : Type) := Except Fault (Option (α × Cursor))

inductive Parser (R : Type → Type) : Type → Type 1
  /-- Any one character. -/
  | item : Parser R Char
  /-- One character for which there is a token. -/
  | accept {α : Type} (tokenOf : Char → Option α) : Parser R α
  /-- Exactly this text. -/
  | literal (s : String) : Parser R String
  /-- No character at all, and this token. -/
  | success {α : Type} (a : α) : Parser R α
  | failure {α : Type} : Parser R α
  | raise {α : Type} (fault : Fault) : Parser R α
  | map {α β : Type} (p : Parser R α) (f : α → β) : Parser R β
  /-- A map by a function that may refuse the token. -/
  | convert {α β : Type} (p : Parser R α) (f : α → Except Fault β) : Parser R β
  /-- The token of the first parser chooses the second. -/
  | bind {α β : Type} (p : Parser R α) (f : α → Parser R β) : Parser R β
  | sequence {α β γ : Type} (p : Parser R α) (q : Parser R β) (combine : α → β → γ) :
      Parser R γ
  /-- Several parsers one behind the other, each with a token type of its own. -/
  | sequenceAll {β : Type} (n : Nat) (τ : Fin n → Type)
      (parts : (i : Fin n) → Parser R (τ i)) (combine : ((i : Fin n) → τ i) → β) :
      Parser R β
  /-- The second parser runs where the first found no match. -/
  | orElse {α : Type} (p q : Parser R α) : Parser R α
  /-- The first alternative that matches. -/
  | choice {α : Type} (n : Nat) (alternatives : Fin n → Parser R α) : Parser R α
  /-- As many tokens as there are, and at least one. -/
  | oneOrMore {α : Type} (p : Parser R α) : Parser R (List α)
  | currentRow : Parser R Int
  | currentCol : Parser R Int
  | currentLocation : Parser R Location
  /-- A rule of the grammar. -/
  | ref {α : Type} (rule : R α) : Parser R α

namespace Parser

variable {R : Type → Type} {α β γ : Type}

/-- One character of a class. -/
def satisfy (holds : Char → Bool) : Parser R Char :=
  accept fun c => if holds c then some c else none

def choiceOf (alternatives : List (Parser R α)) : Parser R α :=
  choice alternatives.length alternatives.get

/-- The tokens of a list of parsers, run one behind the other. -/
def sequenceOf (parts : List (Parser R α)) (combine : List α → β) : Parser R β :=
  sequenceAll parts.length (fun _ => α) parts.get fun tokens => combine (List.ofFn tokens)

def andThen (p : Parser R α) (q : Parser R β) : Parser R β := bind p fun _ => q

def discardLeft (p : Parser R α) (q : Parser R β) : Parser R β :=
  sequence p q fun _ b => b

def discardRight (p : Parser R α) (q : Parser R β) : Parser R α :=
  sequence p q fun a _ => a

/-- As many tokens as there are, perhaps none. -/
def many (p : Parser R α) : Parser R (List α) := orElse (oneOrMore p) (success [])

def optional (p : Parser R α) (default : α) : Parser R α := orElse p (success default)

def optionalString (p : Parser R String) : Parser R String := optional p ""

def void (p : Parser R α) : Parser R Unit := map p fun _ => ()

/-- The same parser over a larger family of rules. -/
def mapRules {R S : Type → Type} (embed : {α : Type} → R α → S α) :
    {α : Type} → Parser R α → Parser S α
  | _, item => item
  | _, accept tokenOf => accept tokenOf
  | _, literal s => literal s
  | _, success a => success a
  | _, failure => failure
  | _, raise fault => raise fault
  | _, map p f => map (mapRules embed p) f
  | _, convert p f => convert (mapRules embed p) f
  | _, bind p f => bind (mapRules embed p) fun a => mapRules embed (f a)
  | _, sequence p q combine => sequence (mapRules embed p) (mapRules embed q) combine
  | _, sequenceAll n τ parts combine =>
      sequenceAll n τ (fun i => mapRules embed (parts i)) combine
  | _, orElse p q => orElse (mapRules embed p) (mapRules embed q)
  | _, choice n alternatives => choice n fun i => mapRules embed (alternatives i)
  | _, oneOrMore p => oneOrMore (mapRules embed p)
  | _, currentRow => currentRow
  | _, currentCol => currentCol
  | _, currentLocation => currentLocation
  | _, ref rule => ref (embed rule)

end Parser

end ParserKit
