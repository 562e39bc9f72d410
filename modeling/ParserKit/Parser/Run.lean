import ParserKit.Parser.Basic

/-!
# Running a parser

`Parser.runWith` says what a parser does at a cursor, given what the rules that
it refers to do.  A grammar ties the knot: a rule may refer to rules down to a
fixed depth, and a reference below that depth is the fault `tooDeep`.  Only
references count as depth; repetition and chains of parts do not.  A running
parser also has to fit the call stack, which `Grammar.runOnStack` adds.

A choice runs its alternatives from one cursor and stops at the first that does
not fail to match.  A repetition runs until its parser fails to match, and a
success that leaves as many characters as before is a fault.
-/

namespace ParserKit

/-- What each rule does at a cursor. -/
abbrev Rules (R : Type → Type) := {α : Type} → R α → Cursor → Outcome α

/-- The characters of a literal, one by one. -/
def takeLiteral : List Char → Cursor → Option Cursor
  | [], c => some c
  | expected :: more, c =>
      match c.advance with
      | some (ch, rest) => if ch = expected then takeLiteral more rest else none
      | none => none

/-- The tokens of a first part and of those behind it. -/
def consToken {n : Nat} {τ : Fin (n + 1) → Type} (a : τ 0) (tokens : (i : Fin n) → τ i.succ) :
    (i : Fin (n + 1)) → τ i
  | ⟨0, _⟩ => a
  | ⟨i + 1, h⟩ => tokens ⟨i, Nat.lt_of_succ_lt_succ h⟩

/-- Run several steps one behind the other and gather their tokens. -/
def collect : (n : Nat) → (τ : Fin n → Type) → ((i : Fin n) → Cursor → Outcome (τ i)) →
    Cursor → Outcome ((i : Fin n) → τ i)
  | 0, _, _, c => .ok (some (fun i => i.elim0, c))
  | n + 1, τ, steps, c =>
      match steps 0 c with
      | .error fault => .error fault
      | .ok none => .ok none
      | .ok (some (a, rest)) =>
          match collect n (fun i => τ i.succ) (fun i => steps i.succ) rest with
          | .error fault => .error fault
          | .ok none => .ok none
          | .ok (some (tokens, stop)) => .ok (some (consToken a tokens, stop))

/-- The first of several steps that does not fail to match. -/
def firstMatch {α : Type} : (n : Nat) → (Fin n → Cursor → Outcome α) → Cursor → Outcome α
  | 0, _, _ => .ok none
  | n + 1, steps, c =>
      match steps 0 c with
      | .ok none => firstMatch n (fun i => steps i.succ) c
      | outcome => outcome

/-- Run `step` until it fails to match; `tokens` holds what was found so far,
the last token first. -/
def repeatFrom {α : Type} (step : Cursor → Outcome α) (tokens : List α) (c : Cursor) :
    Except Fault (List α × Cursor) :=
  match step c with
  | .error fault => .error fault
  | .ok none => .ok (tokens.reverse, c)
  | .ok (some (a, rest)) =>
      if rest.left < c.left then
        repeatFrom step (a :: tokens) rest
      else
        .error (.emptyRepetition c.location)
termination_by c.left

/-- At least one token is a match, none is not. -/
def repeatOutcome {α : Type} (step : Cursor → Outcome α) (c : Cursor) : Outcome (List α) :=
  match repeatFrom step [] c with
  | .error fault => .error fault
  | .ok ([], _) => .ok none
  | .ok (tokens, stop) => .ok (some (tokens, stop))

def Parser.runWith {R : Type → Type} (rules : Rules R) :
    {α : Type} → Parser R α → Cursor → Outcome α
  | _, .item, c => .ok c.advance
  | _, .accept tokenOf, c =>
      match c.advance with
      | some (ch, rest) => .ok ((tokenOf ch).map fun a => (a, rest))
      | none => .ok none
  | _, .literal s, c => .ok ((takeLiteral s.toList c).map fun rest => (s, rest))
  | _, .success a, c => .ok (some (a, c))
  | _, .failure, _ => .ok none
  | _, .raise fault, _ => .error fault
  | _, .map p f, c =>
      match runWith rules p c with
      | .error fault => .error fault
      | .ok none => .ok none
      | .ok (some (a, rest)) => .ok (some (f a, rest))
  | _, .convert p f, c =>
      match runWith rules p c with
      | .error fault => .error fault
      | .ok none => .ok none
      | .ok (some (a, rest)) =>
          match f a with
          | .error fault => .error fault
          | .ok b => .ok (some (b, rest))
  | _, .bind p f, c =>
      match runWith rules p c with
      | .error fault => .error fault
      | .ok none => .ok none
      | .ok (some (a, rest)) => runWith rules (f a) rest
  | _, .sequence p q combine, c =>
      match runWith rules p c with
      | .error fault => .error fault
      | .ok none => .ok none
      | .ok (some (a, middle)) =>
          match runWith rules q middle with
          | .error fault => .error fault
          | .ok none => .ok none
          | .ok (some (b, rest)) => .ok (some (combine a b, rest))
  | _, .sequenceAll n τ parts combine, c =>
      match collect n τ (fun i => runWith rules (parts i)) c with
      | .error fault => .error fault
      | .ok none => .ok none
      | .ok (some (tokens, rest)) => .ok (some (combine tokens, rest))
  | _, .orElse p q, c =>
      match runWith rules p c with
      | .ok none => runWith rules q c
      | outcome => outcome
  | _, .choice n alternatives, c =>
      firstMatch n (fun i => runWith rules (alternatives i)) c
  | _, .oneOrMore p, c => repeatOutcome (runWith rules p) c
  | _, .currentRow, c => .ok (some (c.location.row, c))
  | _, .currentCol, c => .ok (some (c.location.col, c))
  | _, .currentLocation, c => .ok (some (c.location, c))
  | _, .ref rule, c => rules rule c

/-- A grammar gives each of its rules a parser. -/
abbrev Grammar (R : Type → Type) := {α : Type} → R α → Parser R α

namespace Grammar

/-- How many references may be open at one time: each takes a frame of the call
stack at least, and there are a thousand frames. -/
def nestingLimit : Nat := 1000

/-- What a rule does when `depth` references may still be opened. -/
def rule {R : Type → Type} (grammar : Grammar R) : Nat → Rules R
  | 0, _, _, _ => .error .tooDeep
  | depth + 1, _, r, c => (grammar r).runWith (rule grammar depth) c

/-- What a parser over the rules of a grammar does. -/
def run {R : Type → Type} (grammar : Grammar R) {α : Type} (p : Parser R α) :
    Cursor → Outcome α :=
  p.runWith (rule grammar nestingLimit)

end Grammar

/-- The family of rules of a parser that refers to none. -/
inductive NoRule : Type → Type

def NoRule.grammar : Grammar NoRule := fun r => nomatch r

/-- Run a parser that refers to no rule. -/
def Parser.run {α : Type} (p : Parser NoRule α) (c : Cursor) : Outcome α :=
  NoRule.grammar.run p c

end ParserKit
