/-!
# Decimal numerals

Integers are read from runs of decimal digits and written as such.  Both
directions refuse numerals of more than 4300 digits; a sign does not count,
and leading zeros do.
-/

namespace ParserKit.Decimal

def digitLimit : Nat := 4300

/-- The least number of `count + 1` digits. -/
def powerOfTen (count : Nat) : Nat := Nat.pow 10 count

/-- A numeral beyond the limit, met on the way in or on the way out. -/
inductive Excess
  | reading (digits : Nat)
  | writing
  deriving DecidableEq, Repr

def Excess.message : Excess → String
  | reading digits =>
      "Exceeds the limit (4300 digits) for integer string conversion: value has "
        ++ toString digits
        ++ " digits; use sys.set_int_max_str_digits() to increase the limit"
  | writing =>
      "Exceeds the limit (4300 digits) for integer string conversion; "
        ++ "use sys.set_int_max_str_digits() to increase the limit"

/-- The value of a run of decimal digits of any length. -/
def value (digits : List Char) : Nat := Nat.ofDigitChars 10 digits 0

def read (digits : List Char) : Except Excess Nat :=
  if digitLimit < digits.length then
    .error (.reading digits.length)
  else
    .ok (value digits)

/-- The decimal numeral of an integer of any size. -/
def numeral (v : Int) : String := toString v

def write (v : Int) : Except Excess String :=
  if powerOfTen digitLimit ≤ v.natAbs then .error .writing else .ok (numeral v)

/-- Reading a numeral back gives the number that was written. -/
theorem value_toDigits (n : Nat) : value (Nat.toDigits 10 n) = n :=
  Nat.ofDigitChars_ten_toDigits

end ParserKit.Decimal
