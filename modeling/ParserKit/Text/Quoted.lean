import ParserKit.Text.Printable

/-!
# Quoted texts

A text is shown between quotes: single ones, or double ones if it holds a
single quote and no double one.  The quote in use and the backslash are
escaped, line feed, carriage return and tab have escapes of their own, and any
other character that is not printable is written by its code point in two, four
or eight hexadecimal digits.
-/

namespace ParserKit.Quoted

open Printable

def hexDigit (n : Nat) : Char := (Nat.toDigits 16 n).headD '0'

/-- The last `width` hexadecimal digits of a number. -/
def hex : Nat → Nat → List Char
  | 0, _ => []
  | width + 1, n => hex width (n / 16) ++ [hexDigit (n % 16)]

def escapeCode (n : Nat) : List Char :=
  if n < 256 then '\\' :: 'x' :: hex 2 n
  else if n < 65536 then '\\' :: 'u' :: hex 4 n
  else '\\' :: 'U' :: hex 8 n

def escape (quote c : Char) : List Char :=
  if c = quote ∨ c = '\\' then ['\\', c]
  else if c = '\n' then ['\\', 'n']
  else if c = '\r' then ['\\', 'r']
  else if c = '\t' then ['\\', 't']
  else if isPrintable c then [c]
  else escapeCode c.toNat

/-- The quote that a text is shown with. -/
def quoteFor (s : List Char) : Char :=
  if s.contains '\'' && !s.contains '"' then '"' else '\''

def encode (s : List Char) : List Char :=
  let quote := quoteFor s
  quote :: s.flatMap (escape quote) ++ [quote]

def text (s : String) : String := String.ofList (encode s.toList)

end ParserKit.Quoted
