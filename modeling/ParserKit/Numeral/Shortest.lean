import ParserKit.Numeral.Double

/-!
# The shortest text of a double

A double is written with the fewest decimal digits that read back as the same
double; of several such numbers the one nearest to it is taken.  The point
stands among or beside the digits while the number lies between 0.0001 and
10 ^ 16, and other numbers have an exponent of at least two digits.
-/

namespace ParserKit.Shortest

open Double
open Decimal (powerOfTen)

/-- A positive double as a fraction, with the bounds of the numbers that round
to it over the same denominator; `closed` says whether the bounds themselves
round to it. -/
structure Interval where
  low : Nat
  value : Nat
  high : Nat
  den : Nat
  closed : Bool

/-- The numbers that round to `mantissa * 2 ^ exponent`.  Below a power of two
doubles stand twice as close. -/
def Interval.of (mantissa : Nat) (exponent : Int) : Interval :=
  let close := mantissa = hiddenBit ∧ leastExponent < exponent
  let up := (exponent - 2).toNat
  let down := (2 - exponent).toNat
  ⟨(4 * mantissa - if close then 1 else 2) <<< up, (4 * mantissa) <<< up,
    (4 * mantissa + 2) <<< up, 1 <<< down, mantissa % 2 = 0⟩

/-- Whether the fraction `num / den` rounds to the double. -/
def Interval.holds (i : Interval) (num den : Nat) : Bool :=
  let scaledNum := num * i.den
  if i.closed then
    i.low * den ≤ scaledNum && scaledNum ≤ i.high * den
  else
    i.low * den < scaledNum && scaledNum < i.high * den

/-- How many digits stand before the point; below one tenth the count is
negative.  The search starts from a count that is too small. -/
def pointFrom (num den : Nat) : Nat → Int → Int
  | 0, point => point
  | fuel + 1, point =>
      if num * powerOfTen (-point).toNat < den * powerOfTen point.toNat then
        point
      else
        pointFrom num den fuel (point + 1)

def pointOf (num den : Nat) : Int := pointFrom num den 700 (-330)

/-- The best number of `count` digits that rounds to the double, if there is
one: a neighbour of the double on the grid of such numbers. -/
def withDigits (i : Interval) (point : Int) (count : Nat) : Option Nat :=
  let grid := point - count
  let top := i.value * powerOfTen (-grid).toNat
  let bottom := i.den * powerOfTen grid.toNat
  let below := top / bottom
  let fits (n : Nat) : Bool := i.holds (n * powerOfTen grid.toNat) (powerOfTen (-grid).toNat)
  let near := roundDiv top bottom
  let other := if near = below then below + 1 else below
  if fits near then some near else if fits other then some other else none

/-- The shortest digits from `count` digits on. -/
def searchFrom (i : Interval) (point : Int) : Nat → Nat → Nat × Nat
  | 0, count => ((withDigits i point count).getD 0, count)
  | fuel + 1, count =>
      match withDigits i point count with
      | some n => (n, count)
      | none => searchFrom i point fuel (count + 1)

/-- The digits of a positive double and how many of them stand before the
point. -/
def digitsOf (mantissa : Nat) (exponent : Int) : List Char × Int :=
  let i := Interval.of mantissa exponent
  let point := pointOf i.value i.den
  let (n, count) := searchFrom i point 16 1
  let digits := Nat.toDigits 10 n
  (digits, point + (digits.length - count : Nat))

def zeros (n : Nat) : List Char := List.replicate n '0'

/-- Digits with the point behind the first `point` of them. -/
def positional (digits : List Char) (point : Int) : List Char :=
  if point ≤ 0 then
    '0' :: '.' :: zeros (-point).toNat ++ digits
  else if digits.length ≤ point.toNat then
    digits ++ zeros (point.toNat - digits.length) ++ ['.', '0']
  else
    digits.take point.toNat ++ '.' :: digits.drop point.toNat

/-- Digits with the point behind the first of them and an exponent. -/
def exponential (digits : List Char) (point : Int) : List Char :=
  let exponent := point - 1
  let fraction := match digits.drop 1 with
    | [] => []
    | more => '.' :: more
  let magnitude := Nat.toDigits 10 exponent.natAbs
  digits.take 1 ++ fraction ++ 'e' :: (if exponent < 0 then '-' else '+')
    :: zeros (2 - magnitude.length) ++ magnitude

/-- Trailing zeros say nothing about the digits of a fraction. -/
def trim (digits : List Char) : List Char :=
  (digits.reverse.dropWhile (· == '0')).reverse

def text (x : Float) : String :=
  if x.isNaN then
    "nan"
  else
    let sign := if isNegative x then "-" else ""
    let (mantissa, exponent) := parts x
    if x.isInf then
      sign ++ "inf"
    else if mantissa = 0 then
      sign ++ "0.0"
    else
      let (digits, point) := digitsOf mantissa exponent
      let written :=
        if -4 < point ∧ point ≤ 16 then positional (trim digits) point
        else exponential (trim digits) point
      sign ++ String.ofList written

end ParserKit.Shortest
