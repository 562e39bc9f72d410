import ParserKit.Toml.Scan
import ParserKit.Toml.Value

/-!
# Numbers, dates and times

Reading the values that are made of digits.  A date is tried before a time and
a time before a number; each takes as many characters as its form allows.
-/

namespace ParserKit.Toml

def isDecimal (c : Char) : Bool := '0' ≤ c && c ≤ '9'

/-- More digits, each perhaps behind one underscore. -/
def moreDigits (isDigit : Char → Bool) : List Char → List Char × List Char
  | '_' :: c :: cs =>
      if isDigit c then
        let (digits, rest) := moreDigits isDigit cs
        (c :: digits, rest)
      else
        ([], '_' :: c :: cs)
  | c :: cs =>
      if isDigit c then
        let (digits, rest) := moreDigits isDigit cs
        (c :: digits, rest)
      else
        ([], c :: cs)
  | [] => ([], [])

/-- One digit or more, with single underscores between them. -/
def digitRun (isDigit : Char → Bool) : List Char → Option (List Char × List Char)
  | c :: cs =>
      if isDigit c then
        let (digits, rest) := moreDigits isDigit cs
        some (c :: digits, rest)
      else
        none
  | [] => none

/-- The digits of a numeral and its base, behind the zero of its mark. -/
def markedDigits : List Char → Option (Nat × List Char × List Char)
  | 'x' :: cs => (digitRun (fun c => (hexValue? c).isSome) cs).map fun r => (16, r)
  | 'b' :: cs => (digitRun (fun c => c == '0' || c == '1') cs).map fun r => (2, r)
  | 'o' :: cs => (digitRun (fun c => '0' ≤ c && c ≤ '7') cs).map fun r => (8, r)
  | _ => none

def valueInBase (base : Nat) (digits : List Char) : Nat :=
  digits.foldl (fun n c => base * n + (hexValue? c).getD 0) 0

/-- The integer part of a decimal numeral: a zero, or digits that start with
another one. -/
def integerPart : List Char → Option (List Char × List Char)
  | '0' :: cs => some (['0'], cs)
  | cs => digitRun isDecimal cs

def fractionPart : List Char → Option (List Char × List Char)
  | '.' :: cs => digitRun isDecimal cs
  | _ => none

def signOf : List Char → Bool × List Char
  | '-' :: cs => (true, cs)
  | '+' :: cs => (false, cs)
  | cs => (false, cs)

def exponentPart : List Char → Option (Int × List Char)
  | c :: cs =>
      if c == 'e' || c == 'E' then
        let (negative, cs) := signOf cs
        (digitRun isDecimal cs).map fun (digits, rest) =>
          let magnitude : Int := Decimal.value digits
          (if negative then -magnitude else magnitude, rest)
      else
        none
  | [] => none

/-- The integer of a decimal numeral, which may not have too many digits. -/
def decimalInteger (negative : Bool) (digits rest : List Char) : Read Value :=
  match Decimal.read digits with
  | .ok n => .ok (.integer (if negative then -n else n), rest)
  | .error _ => .error (.tooManyDigits digits.length)

/-- A decimal number: an integer unless it has a fraction or an exponent. -/
def decimalNumber (cs : List Char) : Option (Read Value) :=
  let (negative, cs) := signOf cs
  match integerPart cs with
  | none => none
  | some (digits, rest) =>
      let fraction := fractionPart rest
      let (fractionDigits, rest') := fraction.getD ([], rest)
      let exponent := exponentPart rest'
      let (power, rest'') := exponent.getD (0, rest')
      if fraction.isNone && exponent.isNone then
        some (decimalInteger negative digits rest)
      else
        let mantissa := Decimal.value (digits ++ fractionDigits)
        let x := Double.ofDecimal negative mantissa (power - fractionDigits.length)
        some (.ok (.float x, rest''))

def number (cs : List Char) : Option (Read Value) :=
  match cs with
  | '0' :: more =>
      match markedDigits more with
      | some (base, digits, rest) => some (.ok (.integer (valueInBase base digits), rest))
      | none => decimalNumber cs
  | _ => decimalNumber cs

/-- The two numbers that are written as words. -/
def wordNumber (cs : List Char) : Option (Read Value) :=
  let (negative, cs) := signOf cs
  match cs with
  | 'i' :: 'n' :: 'f' :: rest => some (.ok (.float (Double.infinity negative), rest))
  | 'n' :: 'a' :: 'n' :: rest => some (.ok (.float Double.notANumber, rest))
  | _ => none

/-- A number of exactly so many decimal digits. -/
def fixedDigits (count : Nat) (cs : List Char) : Option (Nat × List Char) :=
  let digits := cs.take count
  if digits.length = count ∧ digits.all isDecimal then
    some (Decimal.value digits, cs.drop count)
  else
    none

/-- A number of two digits between two bounds. -/
def twoDigits (low high : Nat) (cs : List Char) : Option (Nat × List Char) :=
  match fixedDigits 2 cs with
  | some (n, rest) => if low ≤ n ∧ n ≤ high then some (n, rest) else none
  | none => none

def expect (c : Char) : List Char → Option (List Char)
  | d :: cs => if c = d then some cs else none
  | [] => none

def dateForm (cs : List Char) : Option (Date × List Char) := do
  let (year, cs) ← fixedDigits 4 cs
  let cs ← expect '-' cs
  let (month, cs) ← twoDigits 1 12 cs
  let cs ← expect '-' cs
  let (day, cs) ← twoDigits 1 31 cs
  return (⟨year, month, day⟩, cs)

/-- The microseconds of a fraction of a second; digits beyond the sixth do not
count. -/
def microseconds : List Char → Nat × List Char
  | '.' :: cs =>
      match cs.span isDecimal with
      | ([], _) => (0, '.' :: cs)
      | (digits, rest) =>
          let kept := digits.take 6
          (Decimal.value (kept ++ List.replicate (6 - kept.length) '0'), rest)
  | cs => (0, cs)

def timeForm (cs : List Char) : Option (Time × List Char) := do
  let (hour, cs) ← twoDigits 0 23 cs
  let cs ← expect ':' cs
  let (minute, cs) ← twoDigits 0 59 cs
  let cs ← expect ':' cs
  let (second, cs) ← twoDigits 0 59 cs
  let (micros, cs) := microseconds cs
  return (⟨hour, minute, second, micros⟩, cs)

def offsetForm (cs : List Char) : Option (Offset × List Char) :=
  match cs with
  | 'Z' :: rest => some (⟨0⟩, rest)
  | 'z' :: rest => some (⟨0⟩, rest)
  | sign :: more =>
      if sign == '+' || sign == '-' then do
        let (hours, more) ← twoDigits 0 23 more
        let more ← expect ':' more
        let (minutes, rest) ← twoDigits 0 59 more
        let total : Int := 60 * hours + minutes
        return (⟨if sign == '-' then -total else total⟩, rest)
      else
        none
  | [] => none

/-- The time behind a date. -/
def timeBehind : List Char → Option (Time × List Char)
  | c :: cs => if c == 'T' || c == 't' || c == ' ' then timeForm cs else none
  | [] => none

/-- A date, perhaps with a time, perhaps with an offset.  The date has to be in
the calendar. -/
def dateOrDateTime (cs : List Char) : Option (Read Value) :=
  match dateForm cs with
  | none => none
  | some (d, rest) =>
      let (value, rest) : Value × List Char :=
        match timeBehind rest with
        | none => (.date d, rest)
        | some (t, rest) =>
            match offsetForm rest with
            | some (o, rest) => (.dateTime d t (some o), rest)
            | none => (.dateTime d t none, rest)
      some (if d.exists then .ok (value, rest) else malformed)

def localTime (cs : List Char) : Option (Read Value) :=
  (timeForm cs).map fun (t, rest) => .ok (.time t, rest)

/-- A value that is neither a string nor a truth value nor a container. -/
def scalar (cs : List Char) : Read Value :=
  ((dateOrDateTime cs <|> localTime cs) <|> (number cs <|> wordNumber cs)).getD malformed

end ParserKit.Toml
