import ParserKit.Numeral.Decimal

/-!
# Double-precision numbers

The double nearest to a fraction, the power of two integers on doubles, and the
integer part of a double.  Nearest is to even: of two doubles at the same
distance the one with the even last bit is taken.
-/

namespace ParserKit.Double

open Decimal (powerOfTen)

/-- Bits of precision, the leading one included. -/
def precision : Nat := 53

/-- The leading bit of a full mantissa, which is not stored. -/
def hiddenBit : Nat := 1 <<< (precision - 1)

/-- The exponent of the last bit of the smallest doubles. -/
def leastExponent : Int := -1074

/-- A fraction rounded to the nearest integer, a half to the even one. -/
def roundDiv (num den : Nat) : Nat :=
  let quotient := num / den
  let twice := 2 * (num % den)
  if twice < den ∨ twice = den ∧ quotient % 2 = 0 then quotient else quotient + 1

/-- The fraction `num / den / 2 ^ exponent`, its two sides as integers. -/
def scaled (num den : Nat) (exponent : Int) : Nat × Nat :=
  (num <<< (-exponent).toNat, den <<< exponent.toNat)

/-- A positive fraction as `mantissa * 2 ^ exponent` with at most 53 bits of
mantissa, the nearest such number. -/
def nearest (num den : Nat) : Nat × Int :=
  let guess : Int := num.log2 - den.log2 - precision
  let (top, bottom) := scaled num den guess
  let wide := if bottom <<< precision ≤ top then guess + 1 else guess
  let exponent := max wide leastExponent
  let (top, bottom) := scaled num den exponent
  let mantissa := roundDiv top bottom
  if mantissa = 1 <<< precision then (hiddenBit, exponent + 1) else (mantissa, exponent)

/-- The bits of `mantissa * 2 ^ exponent`; a mantissa of less than 53 bits
belongs to the smallest doubles. -/
def bitsOf (mantissa : Nat) (exponent : Int) : Nat :=
  if mantissa < hiddenBit then
    mantissa
  else
    (exponent - leastExponent + 1).toNat <<< 52 + (mantissa - hiddenBit)

/-- The exponent from which on numbers are beyond all doubles. -/
def exponentLimit : Int := 972

/-- The double nearest to a fraction, unless it is beyond all doubles. -/
def ofRatio? (negative : Bool) (num den : Nat) : Option Float :=
  let sign : Nat := if negative then 1 <<< 63 else 0
  if num = 0 then
    some (Float.ofBits (UInt64.ofNat sign))
  else
    let (mantissa, exponent) := nearest num den
    if exponent < exponentLimit then
      some (Float.ofBits (UInt64.ofNat (sign + bitsOf mantissa exponent)))
    else
      none

def ofInt? (v : Int) : Option Float := ofRatio? (v < 0) v.natAbs 1

def infinity (negative : Bool) : Float := if negative then -1.0 / 0.0 else 1.0 / 0.0

def notANumber : Float := 0.0 / 0.0

/-- The double nearest to `mantissa * 10 ^ exponent`.  Numbers far outside the
range of doubles are told apart by their count of digits. -/
def ofDecimal (negative : Bool) (mantissa : Nat) (exponent : Int) : Float :=
  let size := exponent + (Nat.toDigits 10 mantissa).length
  let limited :=
    if mantissa = 0 ∨ size < -400 then ofRatio? negative 0 1
    else if 400 < size then none
    else ofRatio? negative (mantissa * powerOfTen exponent.toNat) (powerOfTen (-exponent).toNat)
  limited.getD (infinity negative)

/-- A finite double without its sign, as `mantissa * 2 ^ exponent`. -/
def parts (x : Float) : Nat × Int :=
  let bits : Nat := x.toBits.toNat
  let field : Nat := (bits >>> 52) % 2048
  let fraction : Nat := bits % hiddenBit
  if field = 0 then
    (fraction, leastExponent)
  else
    (fraction + hiddenBit, (field : Int) - 1 + leastExponent)

def isNegative (x : Float) : Bool := x.toBits.toNat >>> 63 = 1

/-- The integer part of a finite double. -/
def truncate (x : Float) : Int :=
  let (mantissa, exponent) := parts x
  let magnitude : Nat := mantissa <<< exponent.toNat >>> (-exponent).toNat
  if isNegative x then -magnitude else magnitude

/-- What the power of two integers comes to. -/
inductive Power
  | value (v : Int)
  /-- Zero was raised to a negative exponent. -/
  | zeroToNegative
  /-- An operand or the power is beyond all doubles. -/
  | tooLarge
  deriving DecidableEq, Repr

/-- The power of two integers, computed on the doubles nearest to them. -/
def power (base exponent : Int) : Power :=
  match ofInt? base, ofInt? exponent with
  | some x, some y =>
      if base = 0 ∧ exponent < 0 then
        .zeroToNegative
      else
        let z := x.pow y
        if z.isInf then .tooLarge else .value (truncate z)
  | _, _ => .tooLarge

end ParserKit.Double
