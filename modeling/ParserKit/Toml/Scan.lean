/-!
# Characters, keys and strings

The lexical level of configuration files: blanks, comments, keys and quoted
strings.  Every reader takes the characters that remain and answers what it
found with the characters behind it.
-/

namespace ParserKit.Toml

/-- Why a file cannot be read. -/
inductive Problem
  /-- The text is not a configuration file. -/
  | malformed
  /-- A decimal integer has too many digits. -/
  | tooManyDigits (digits : Nat)
  /-- Arrays and tables nest too deeply. -/
  | tooDeep
  deriving DecidableEq, Repr

abbrev Read (α : Type) := Except Problem (α × List Char)

def malformed {α : Type} : Read α := .error .malformed

def isBlank (c : Char) : Bool := c == ' ' || c == '\t'

def isBlankOrBreak (c : Char) : Bool := isBlank c || c == '\n'

/-- Control characters other than the tab may not stand in a line. -/
def isIllegal (c : Char) : Bool := (c.toNat < 32 || c.toNat == 127) && c != '\t'

/-- A text over several lines may hold line feeds. -/
def isIllegalIn (multiline : Bool) (c : Char) : Bool :=
  isIllegal c && !(multiline && c == '\n')

def skipBlanks (cs : List Char) : List Char := cs.dropWhile isBlank

/-- Skip a comment up to the end of its line. -/
def skipComment : List Char → Except Problem (List Char)
  | '#' :: cs =>
      let (comment, rest) := cs.span (· != '\n')
      if comment.any isIllegal then .error .malformed else .ok rest
  | cs => .ok cs

/-- Skip blanks, line feeds and comments inside an array. -/
def skipFiller : Nat → List Char → Except Problem (List Char)
  | 0, cs => .ok cs
  | fuel + 1, cs =>
      match cs.dropWhile isBlankOrBreak with
      | '#' :: more =>
          match skipComment ('#' :: more) with
          | .error e => .error e
          | .ok rest => skipFiller fuel rest
      | rest => .ok rest

def isBareKey (c : Char) : Bool := c.isAlphanum || c == '-' || c == '_'

def hexValue? (c : Char) : Option Nat :=
  if '0' ≤ c ∧ c ≤ '9' then some (c.toNat - '0'.toNat)
  else if 'a' ≤ c ∧ c ≤ 'f' then some (c.toNat - 'a'.toNat + 10)
  else if 'A' ≤ c ∧ c ≤ 'F' then some (c.toNat - 'A'.toNat + 10)
  else none

/-- A number of exactly so many hexadecimal digits. -/
def hexNumber : Nat → Nat → List Char → Read Nat
  | 0, n, cs => .ok (n, cs)
  | count + 1, n, c :: cs =>
      match hexValue? c with
      | some d => hexNumber count (16 * n + d) cs
      | none => malformed
  | _ + 1, _, [] => malformed

/-- The character of an escape by its code point. -/
def hexChar (count : Nat) (cs : List Char) : Read (List Char) :=
  match hexNumber count 0 cs with
  | .error e => .error e
  | .ok (n, rest) => if n.isValidChar then .ok ([Char.ofNat n], rest) else malformed

/-- Behind a backslash at the end of a line, all blanks and line feeds are
skipped. -/
def lineEnd (cs : List Char) : Read (List Char) :=
  match skipBlanks cs with
  | [] => .ok ([], [])
  | '\n' :: rest => .ok ([], rest.dropWhile isBlankOrBreak)
  | _ => malformed

/-- What a backslash and the characters behind it stand for. -/
def escape (multiline : Bool) : List Char → Read (List Char)
  | 'u' :: cs => hexChar 4 cs
  | 'U' :: cs => hexChar 8 cs
  | 'b' :: cs => .ok (['\x08'], cs)
  | 't' :: cs => .ok (['\t'], cs)
  | 'n' :: cs => .ok (['\n'], cs)
  | 'f' :: cs => .ok (['\x0c'], cs)
  | 'r' :: cs => .ok (['\r'], cs)
  | '"' :: cs => .ok (['"'], cs)
  | '\\' :: cs => .ok (['\\'], cs)
  | c :: cs => if multiline && isBlankOrBreak c then lineEnd (c :: cs) else malformed
  | [] => malformed

/-- The rest of a string with escapes, up to its closing quotes; `found` holds
the characters so far, the last one first. -/
def basicRest (multiline : Bool) : Nat → List Char → List Char → Read (List Char)
  | 0, _, _ => malformed
  | _ + 1, _, [] => malformed
  | fuel + 1, found, '"' :: cs =>
      if multiline then
        match cs with
        | '"' :: '"' :: rest => .ok (found.reverse, rest)
        | _ => basicRest multiline fuel ('"' :: found) cs
      else
        .ok (found.reverse, cs)
  | fuel + 1, found, '\\' :: cs =>
      match escape multiline cs with
      | .error e => .error e
      | .ok (chars, rest) => basicRest multiline fuel (chars.reverse ++ found) rest
  | fuel + 1, found, c :: cs =>
      if isIllegalIn multiline c then malformed
      else basicRest multiline fuel (c :: found) cs

/-- The rest of a string without escapes, up to its closing quotes. -/
def literalRest (multiline : Bool) : List Char → List Char → Read (List Char)
  | _, [] => malformed
  | found, '\'' :: cs =>
      if multiline then
        match cs with
        | '\'' :: '\'' :: rest => .ok (found.reverse, rest)
        | _ => literalRest multiline ('\'' :: found) cs
      else
        .ok (found.reverse, cs)
  | found, c :: cs =>
      if isIllegalIn multiline c then malformed else literalRest multiline (c :: found) cs

/-- Up to two quotes directly behind the closing ones still belong to a string
over several lines. -/
def takeQuotes (quote : Char) (found rest : List Char) : List Char × List Char :=
  let extra := (rest.take 2).takeWhile (· == quote)
  (found ++ extra, rest.drop extra.length)

/-- A line feed directly behind the opening quotes does not count. -/
def dropBreak : List Char → List Char
  | '\n' :: cs => cs
  | cs => cs

def asString (multiline : Bool) (quote : Char) : Read (List Char) → Read String
  | .error e => .error e
  | .ok (found, rest) =>
      if multiline then
        let (all, rest) := takeQuotes quote found rest
        .ok (String.ofList all, rest)
      else
        .ok (String.ofList found, rest)

/-- A string that starts with double quotes. -/
def basicString (multiline : Bool) (cs : List Char) : Read String :=
  let body := if multiline then dropBreak cs else cs
  asString multiline '"' (basicRest multiline (body.length + 1) [] body)

/-- A string that starts with single quotes. -/
def literalString (multiline : Bool) (cs : List Char) : Read String :=
  let body := if multiline then dropBreak cs else cs
  asString multiline '\'' (literalRest multiline [] body)

/-- One part of a key: bare, or in quotes. -/
def keyPart : List Char → Read String
  | '"' :: cs => basicString false cs
  | '\'' :: cs => literalString false cs
  | cs =>
      match cs.span isBareKey with
      | ([], _) => malformed
      | (name, rest) => .ok (String.ofList name, rest)

/-- The parts of a key with points between them. -/
def keyParts : Nat → List Char → Read (List String)
  | 0, _ => malformed
  | fuel + 1, cs =>
      match keyPart cs with
      | .error e => .error e
      | .ok (part, rest) =>
          match skipBlanks rest with
          | '.' :: more =>
              match keyParts fuel (skipBlanks more) with
              | .error e => .error e
              | .ok (parts, rest) => .ok (part :: parts, rest)
          | rest => .ok ([part], rest)

def key (cs : List Char) : Read (List String) := keyParts (cs.length + 1) cs

end ParserKit.Toml
