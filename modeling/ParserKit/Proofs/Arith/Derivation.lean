import ParserKit.Arith.Tree
import ParserKit.Proofs.Lexemes

/-!
# The language of arithmetic

The grammar that the reader of arithmetic is meant to follow, on its own and
without any order of attempts:

    expression   := term term_tail
    term_tail    := '+' term term_tail | '-' term term_tail | epsilon
    term         := factor factor_tail
    factor_tail  := '*' factor factor_tail | '/' factor factor_tail | epsilon
    factor       := operand operand_tail
    operand_tail := '^' operand operand_tail | epsilon
    operand      := '(' expression ')' | natural | identifier
                  | '-' operand | '+' operand

A derivation runs over tokens; `Renders` adds how tokens are spelled and that
blanks may stand before, between and behind them.
-/

namespace ParserKit.Arith

open CharClass

def Operator.sign : Operator → Char
  | add => '+'
  | subtract => '-'
  | multiply => '*'
  | divide => '/'
  | power => '^'

/-- The operators that join the parts of a level. -/
def Level.operators : Level → List Operator
  | expression => [.add, .subtract]
  | term => [.multiply, .divide]
  | factor => [.power]

inductive Token
  | opening
  | closing
  | operator (op : Operator)
  | number (n : Nat)
  | name (s : String)

/-- How a token is spelled.  A number may have leading zeros. -/
inductive Token.Written : Token → List Char → Prop
  | opening : Written opening ['(']
  | closing : Written closing [')']
  | operator (op : Operator) : Written (operator op) [op.sign]
  | number {digits : List Char} (hne : digits ≠ []) (hdigits : Run isDigit digits) :
      Written (number (Decimal.value digits)) digits
  | name {ch : Char} {s : List Char} (hletter : isLetter ch = true) (hs : Run isAlphanum s) :
      Written (name (String.ofList (ch :: s))) (ch :: s)

/-- Tokens with any blanks before, between and behind them. -/
inductive Spaced : List Token → List Char → Prop
  | nil {blanks : List Char} (hblank : Blank blanks) : Spaced [] blanks
  | cons {t : Token} {ts : List Token} {blanks word s : List Char} (hblank : Blank blanks)
      (hword : t.Written word) (more : Spaced ts s) : Spaced (t :: ts) (blanks ++ (word ++ s))

/-- The nonterminals: operands, and for each level its chains and their tails. -/
inductive Part
  | operand
  | level (l : Level)
  | tail (l : Level)

/-- The parts that the chains of a level are made of. -/
def Level.part : Level → Part
  | expression => .level .term
  | term => .level .factor
  | factor => .operand

/-- A sequence of tokens derives a tree, which carries no spans.  Plus as a
sign leaves no node. -/
inductive Derives : Part → List Token → Node → Prop
  | paren {ts : List Token} {body : Node} (hbody : Derives (.level .expression) ts body) :
      Derives .operand (.opening :: (ts ++ [.closing])) (.paren body)
  | number (n : Nat) : Derives .operand [.number n] (.number n none)
  | name (s : String) : Derives .operand [.name s] (.identifier s none)
  | minus {ts : List Token} {operand : Node} (hoperand : Derives .operand ts operand) :
      Derives .operand (.operator .subtract :: ts) (.negate operand)
  | plus {ts : List Token} {operand : Node} (hoperand : Derives .operand ts operand) :
      Derives .operand (.operator .add :: ts) operand
  | chain {l : Level} {us vs : List Token} {head tail : Node} (hhead : Derives l.part us head)
      (htail : Derives (.tail l) vs tail) : Derives (.level l) (us ++ vs) (.chain l head tail)
  | done (l : Level) : Derives (.tail l) [] .done
  | step {l : Level} {op : Operator} {us vs : List Token} {operand rest : Node}
      (hop : op ∈ l.operators) (hoperand : Derives l.part us operand)
      (hrest : Derives (.tail l) vs rest) :
      Derives (.tail l) (.operator op :: (us ++ vs)) (.step op operand rest none)

/-- A derivation in which no token stands inside more than `n` parentheses and
operands behind a sign.  How long its chains are does not matter. -/
inductive DerivesWithin : Nat → Part → List Token → Node → Prop
  | paren {n : Nat} {ts : List Token} {body : Node}
      (hbody : DerivesWithin n (.level .expression) ts body) :
      DerivesWithin (n + 1) .operand (.opening :: (ts ++ [.closing])) (.paren body)
  | number {n : Nat} (v : Nat) : DerivesWithin n .operand [.number v] (.number v none)
  | name {n : Nat} (s : String) : DerivesWithin n .operand [.name s] (.identifier s none)
  | minus {n : Nat} {ts : List Token} {operand : Node}
      (hoperand : DerivesWithin n .operand ts operand) :
      DerivesWithin (n + 1) .operand (.operator .subtract :: ts) (.negate operand)
  | plus {n : Nat} {ts : List Token} {operand : Node}
      (hoperand : DerivesWithin n .operand ts operand) :
      DerivesWithin (n + 1) .operand (.operator .add :: ts) operand
  | chain {n : Nat} {l : Level} {us vs : List Token} {head tail : Node}
      (hhead : DerivesWithin n l.part us head) (htail : DerivesWithin n (.tail l) vs tail) :
      DerivesWithin n (.level l) (us ++ vs) (.chain l head tail)
  | done {n : Nat} (l : Level) : DerivesWithin n (.tail l) [] .done
  | step {n : Nat} {l : Level} {op : Operator} {us vs : List Token} {operand rest : Node}
      (hop : op ∈ l.operators) (hoperand : DerivesWithin n l.part us operand)
      (hrest : DerivesWithin n (.tail l) vs rest) :
      DerivesWithin n (.tail l) (.operator op :: (us ++ vs)) (.step op operand rest none)

/-- The characters spell an expression whose tree, spans aside, is `tree`. -/
def Renders (tree : Node) (s : List Char) : Prop :=
  ∃ ts, Derives (.level .expression) ts tree.eraseSpans ∧ Spaced ts s

/-- No run of digits is too long to be a number. -/
def ShortRuns (s : List Char) : Prop :=
  ∀ run, run <:+: s → Run isDigit run → run.length ≤ Decimal.digitLimit

variable {ts us vs : List Token} {s s' : List Char} {part : Part} {tree : Node}

theorem ShortRuns.of_infix (h : ShortRuns s) (hs : s' <:+: s) : ShortRuns s' :=
  fun run hrun => h run (hrun.trans hs)

theorem Spaced.blank_append (h : Spaced ts s) (hs' : Blank s') : Spaced ts (s' ++ s) := by
  cases h with
  | nil hblank => exact .nil (hs'.append hblank)
  | cons hblank hword more =>
      rw [← List.append_assoc]
      exact .cons (hs'.append hblank) hword more

/-- Blanks behind one row of tokens stand before the next. -/
theorem Spaced.append (h : Spaced us s) (h' : Spaced vs s') : Spaced (us ++ vs) (s ++ s') := by
  induction h with
  | nil hblank => exact h'.blank_append hblank
  | cons hblank hword _ ih =>
      rw [List.append_assoc, List.append_assoc]
      exact .cons hblank hword ih

theorem Derives.eraseSpans_eq (h : Derives part ts tree) : tree.eraseSpans = tree := by
  induction h with
  | paren _ ih | minus _ ih => rw [Node.eraseSpans, ih]
  | number | name | done => rfl
  | plus _ ih => exact ih
  | chain _ _ ihhead ihtail => rw [Node.eraseSpans, ihhead, ihtail]
  | step _ _ _ ihoperand ihrest => rw [Node.eraseSpans, ihoperand, ihrest]

theorem DerivesWithin.derives {n : Nat} (h : DerivesWithin n part ts tree) :
    Derives part ts tree := by
  induction h with
  | paren _ ih => exact .paren ih
  | number v => exact .number v
  | name s => exact .name s
  | minus _ ih => exact .minus ih
  | plus _ ih => exact .plus ih
  | chain _ _ ihhead ihtail => exact .chain ihhead ihtail
  | done l => exact .done l
  | step hop _ _ ihoperand ihrest => exact .step hop ihoperand ihrest

theorem DerivesWithin.mono {n m : Nat} (h : DerivesWithin n part ts tree) (hle : n ≤ m) :
    DerivesWithin m part ts tree := by
  induction h generalizing m with
  | paren _ ih =>
      obtain ⟨m, rfl⟩ := Nat.exists_eq_add_of_le' (Nat.le_trans (Nat.le_add_left 1 _) hle)
      exact .paren (ih (Nat.le_of_succ_le_succ hle))
  | number v => exact .number v
  | name s => exact .name s
  | minus _ ih =>
      obtain ⟨m, rfl⟩ := Nat.exists_eq_add_of_le' (Nat.le_trans (Nat.le_add_left 1 _) hle)
      exact .minus (ih (Nat.le_of_succ_le_succ hle))
  | plus _ ih =>
      obtain ⟨m, rfl⟩ := Nat.exists_eq_add_of_le' (Nat.le_trans (Nat.le_add_left 1 _) hle)
      exact .plus (ih (Nat.le_of_succ_le_succ hle))
  | chain _ _ ihhead ihtail => exact .chain (ihhead hle) (ihtail hle)
  | done l => exact .done l
  | step hop _ _ ihoperand ihrest => exact .step hop (ihoperand hle) (ihrest hle)

theorem Derives.exists_within (h : Derives part ts tree) :
    ∃ n, DerivesWithin n part ts tree := by
  induction h with
  | paren _ ih =>
      obtain ⟨n, hn⟩ := ih
      exact ⟨n + 1, .paren hn⟩
  | number v => exact ⟨0, .number v⟩
  | name s => exact ⟨0, .name s⟩
  | minus _ ih =>
      obtain ⟨n, hn⟩ := ih
      exact ⟨n + 1, .minus hn⟩
  | plus _ ih =>
      obtain ⟨n, hn⟩ := ih
      exact ⟨n + 1, .plus hn⟩
  | chain _ _ ihhead ihtail =>
      obtain ⟨n, hn⟩ := ihhead
      obtain ⟨m, hm⟩ := ihtail
      exact ⟨max n m, .chain (hn.mono (Nat.le_max_left n m)) (hm.mono (Nat.le_max_right n m))⟩
  | done l => exact ⟨0, .done l⟩
  | step hop _ _ ihoperand ihrest =>
      obtain ⟨n, hn⟩ := ihoperand
      obtain ⟨m, hm⟩ := ihrest
      exact ⟨max n m, .step hop (hn.mono (Nat.le_max_left n m)) (hm.mono (Nat.le_max_right n m))⟩

/-- A chain grows by a step at its end. -/
theorem Derives.snoc {l : Level} {op : Operator} {steps : List (Operator × Node × Option Span)}
    {operand : Node} (htail : Derives (.tail l) ts (Node.ofSteps steps).eraseSpans)
    (hop : op ∈ l.operators) (hoperand : Derives l.part us operand.eraseSpans)
    (span : Option Span) :
    Derives (.tail l) (ts ++ .operator op :: us)
      (Node.ofSteps (steps ++ [(op, operand, span)])).eraseSpans := by
  induction steps generalizing ts with
  | nil =>
      obtain rfl : ts = [] := by
        generalize htree : (Node.ofSteps []).eraseSpans = tree at htail
        cases htail with
        | done => rfl
        | step => simp [Node.ofSteps, Node.eraseSpans] at htree
      have hstep := Derives.step hop hoperand (.done l)
      rwa [List.append_nil] at hstep
  | cons first more ih =>
      generalize htree : (Node.ofSteps (first :: more)).eraseSpans = tree at htail
      cases htail with
      | done => simp [Node.ofSteps, Node.eraseSpans] at htree
      | step hop' hoperand' hrest =>
          simp only [Node.ofSteps, List.foldr_cons, Node.eraseSpans, Node.step.injEq] at htree
          obtain ⟨rfl, rfl, rfl, -⟩ := htree
          rw [List.cons_append, List.append_assoc]
          exact .step hop' hoperand' (ih hrest)

end ParserKit.Arith
