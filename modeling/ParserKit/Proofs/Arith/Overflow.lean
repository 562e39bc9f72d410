import Mathlib
import ParserKit.Arith.Evaluate
import ParserKit.Proofs.Arith.Reading
import ParserKit.Proofs.Overflow

/-!
# Expressions that are too deep

A parenthesis that stands last in a chain in a chain in a chain is the deepest one,
and takes 57 frames.  An expression that opens one there, and in it the next, is too
deep from the seventeenth on.
-/

namespace ParserKit.Arith

open ParserKit.Parser CharClass

/-- An expression in `n` pairs of parentheses, each of them at the deepest place. -/
def nested : Nat → List Char
  | 0 => ['1']
  | n + 1 => '1' :: '+' :: '1' :: '*' :: '1' :: '^' :: '(' :: (nested n ++ [')'])

theorem stops_nested {k : Char → Bool} (hk : k '1' = false) (n : Nat) (rest : List Char) :
    Stops k (nested n ++ rest) := by
  cases n <;> exact (stops_cons ..).2 hk

/-! ## They are expressions -/

variable {n : Nat} {ts : List Token} {tree : Node}

theorem written_one : Token.Written (.number 1) ['1'] := by
  have hdigits : Run isDigit ['1'] := by
    rw [Run, List.forall_mem_singleton]
    rfl
  exact .number (List.cons_ne_nil _ _) hdigits

theorem exists_derivesWithin_one (n : Nat) (l : Level) :
    ∃ tree, DerivesWithin n l.part [.number 1] tree := by
  have hfactor := DerivesWithin.chain (l := .factor) (.number 1) (.done (n := n) .factor)
  cases l with
  | factor => exact ⟨_, .number 1⟩
  | term => exact ⟨_, hfactor⟩
  | expression => exact ⟨_, .chain (l := .term) hfactor (.done .term)⟩

/-- A part of a level stands behind a number and an operator. -/
theorem DerivesWithin.exists_behind_one {l : Level} {op : Operator} (hop : op ∈ l.operators)
    (h : DerivesWithin n l.part ts tree) :
    ∃ whole, DerivesWithin n (.level l) (.number 1 :: .operator op :: ts) whole := by
  obtain ⟨one, hone⟩ := exists_derivesWithin_one n l
  have hchain := DerivesWithin.chain hone (.step hop h (.done l))
  rw [List.append_nil, List.singleton_append] at hchain
  exact ⟨_, hchain⟩

theorem exists_derivesWithin_nested (n : Nat) :
    ∃ ts tree, DerivesWithin n (.level .expression) ts tree ∧ Spaced ts (nested n) := by
  have hnone : Blank [] := run_nil isSpace
  have hword := written_one
  induction n with
  | zero =>
      obtain ⟨one, hone⟩ := exists_derivesWithin_one 0 .expression
      have hchain := DerivesWithin.chain hone (.done .expression)
      exact ⟨_, _, hchain, .cons hnone hword (.nil hnone)⟩
  | succ n ih =>
      obtain ⟨ts, body, hbody, hspaced⟩ := ih
      have hpower : Operator.power ∈ Level.operators .factor := by simp [Level.operators]
      have hmultiply : Operator.multiply ∈ Level.operators .term := by simp [Level.operators]
      have hadd : Operator.add ∈ Level.operators .expression := by simp [Level.operators]
      obtain ⟨factor, hfactor⟩ := hbody.paren.exists_behind_one hpower
      obtain ⟨term, hterm⟩ := hfactor.exists_behind_one hmultiply
      obtain ⟨tree, htree⟩ := hterm.exists_behind_one hadd
      have hclosed : Spaced (ts ++ [.closing]) (nested n ++ [')']) :=
        hspaced.append (.cons hnone .closing (.nil hnone))
      exact ⟨_, tree, htree, .cons hnone hword (.cons hnone (.operator .add)
        (.cons hnone hword (.cons hnone (.operator .multiply)
        (.cons hnone hword (.cons hnone (.operator .power) (.cons hnone .opening hclosed))))))⟩

/-! ## They are too deep -/

section

variable {fuel v : Nat} {c : Cursor} {rest : List Char}

/-- The rules of arithmetic on the stack. -/
abbrev rulesOnStack (fuel : Nat) : Rules (Framed Rule) :=
  Grammar.rule (Grammar.onStack grammar) fuel

/-- What a parser ends in, unless there are too few frames. -/
theorem meets_onStack {α : Type} {p : Parser Rule α} {Q : α → Cursor → Prop}
    (h : (p.runWith (Grammar.rule grammar fuel) c).Meets (· = .tooDeep) False Q) (n : Nat) :
    ((p.onStack n).runWith (rulesOnStack fuel) c).Meets (· = .tooDeep) False Q :=
  (Grammar.onStack_approximates grammar fuel n p c).meets (F := (· = .tooDeep)) rfl h

theorem runsOut_expression (rules : Rules (Framed Rule)) (c : Cursor) :
    RunsOut rules 29 expression c := by
  have hoperand : RunsOut rules 23 operand c :=
    (((runsOut_token (literal "(") c).sequence _ _).sequence _ _).map _ |>.choiceOf _
  exact ((hoperand.sequence _ _).sequence _ _).sequence _ _

theorem meets_symbol_onStack {ch : Char} (hspace : isSpace ch = false)
    (hc : c.remaining = ch :: rest) (hrest : Stops isSpace rest) {Q : Cursor → Prop}
    (hQ : ∀ d : Cursor, d.remaining = rest → Q d) (n : Nat) :
    (((symbol (String.singleton ch) : Parser Rule String).onStack n).runWith
      (rulesOnStack fuel) c).Meets (· = .tooDeep) False fun _ d => Q d := by
  refine meets_onStack ?_ n
  have hstart : c.remaining = (String.singleton ch).toList ++ ([] ++ rest) := by
    rw [hc, String.toList_singleton]
    rfl
  refine meets_symbol_of_remaining _ hstart ?_ (run_nil isSpace) hrest hQ
  rw [hc]
  exact (stops_cons ..).2 hspace

theorem runsOut_operand (hrest : Stops isSpace rest) (hc : c.remaining = '(' :: rest)
    (hrules : ∀ d : Cursor, d.remaining = rest → ∀ n ≤ v,
      rulesOnStack fuel ⟨Rule.expression, n⟩ d = .error .tooDeep) :
    RunsOut (rulesOnStack fuel) (v + 9) operand c := by
  have hopened : RunsOut (rulesOnStack fuel) (v + 3)
      (discardLeft (symbol "(") (ref Rule.expression)) c :=
    runsOut_sequence_of_meets _ fun n => meets_symbol_onStack rfl hc hrest
      (fun d hd => runsOut_ref (hrules d hd)) n
  exact ((hopened.sequence _ _).map _).choiceOf _

/-- A level runs out of frames where the part behind its first operator does. -/
theorem runsOut_levelParser {l : Level} {op : Operator} {more : List Operator}
    (hops : l.operators = op :: more) {part : ArithParser}
    (hcomplete : Completes (fuel + 1) l.part (part.runWith (Grammar.rule grammar fuel)))
    (hrest : Stops isSpace rest) (hc : c.remaining = '1' :: op.sign :: rest)
    (hpart : ∀ d : Cursor, d.remaining = rest → RunsOut (rulesOnStack fuel) v part d) :
    RunsOut (rulesOnStack fuel) (v + 16) (levelParser l part) c := by
  have hstep : ∀ d : Cursor, d.remaining = op.sign :: rest →
      RunsOut (rulesOnStack fuel) (v + 6) (stepOf (String.singleton op.sign) part op) d := by
    intro d hd
    have hsigned : RunsOut (rulesOnStack fuel) (v + 2)
        (discardLeft (symbol (String.singleton op.sign)) part) d :=
      runsOut_sequence_of_meets _ (meets_symbol_onStack op.isSpace_sign hd hrest hpart)
    exact hsigned.withLocation.map _
  have hhead : ∀ n, ((part.onStack n).runWith (rulesOnStack fuel) c).Meets (· = .tooDeep) False
      fun _ d => d.remaining = op.sign :: rest := by
    intro n
    obtain ⟨one, hone⟩ := exists_derivesWithin_one 0 l
    have hlaid : Laid [.number 1] ['1'] := .cons written_one (run_nil isSpace) .nil
    have hbehind : Follows l.part (op.sign :: rest) := by
      intro ch hch
      obtain rfl : op.sign = ch := by simpa using hch
      exact sign_mem_follow (hops ▸ List.mem_cons_self)
    have hshort : ShortRuns ['1'] := shortRuns_of_length_le (by decide)
    refine meets_onStack ?_ n
    exact (hcomplete hone hlaid hbehind hshort hc).mono (fun _ => And.left) id fun _ _ h => h.2
  apply runsOut_sequence_of_meets
  intro n
  apply (hhead n).imp
  intro _ d hd
  rw [chainOf, hops, List.map_cons]
  exact ((hstep d hd).choiceOf _).many.map _

/-- Each pair of parentheses takes 57 frames more. -/
theorem runsOut_nested (n : Nat) (hc : c.remaining = nested n ++ rest) :
    RunsOut (rulesOnStack fuel) (57 * n + 29) expression c := by
  induction n generalizing fuel rest c with
  | zero => exact runsOut_expression _ c
  | succ n ih =>
      have hrules : ∀ d : Cursor, d.remaining = nested n ++ ([')'] ++ rest) →
          ∀ m ≤ 57 * n + 29, rulesOnStack fuel ⟨Rule.expression, m⟩ d = .error .tooDeep := by
        intro d hd m hm
        cases fuel with
        | zero => rfl
        | succ fuel => exact ih hd m hm
      have hstops := stops_nested (k := isSpace) rfl n ([')'] ++ rest)
      have hoperand := completes_operand (completeRules_rule fuel)
      have hfactor := completes_levelParser .factor hoperand
      have hadd : Level.operators .expression = [.add, .subtract] := rfl
      have hmultiply : Level.operators .term = [.multiply, .divide] := rfl
      have hpower : Level.operators .factor = [.power] := rfl
      rw [nested] at hc
      simp only [List.cons_append, List.append_assoc] at hc
      rw [expression_eq]
      refine runsOut_levelParser hadd (completes_levelParser .term hfactor) ?_ hc fun d hd => ?_
      · exact (stops_cons ..).2 rfl
      rw [term_eq]
      refine runsOut_levelParser hmultiply hfactor ?_ hd fun d hd => ?_
      · exact (stops_cons ..).2 rfl
      rw [factor_eq]
      refine runsOut_levelParser hpower hoperand ?_ hd fun d hd => ?_
      · exact (stops_cons ..).2 rfl
      exact runsOut_operand hstops hd hrules

end

/-- Seventeen of them are too deep. -/
theorem read_nested (hn : 17 ≤ n) : read (String.ofList (nested n)) = .error .tooDeep := by
  have hprogram : RunsOut (rulesOnStack Grammar.nestingLimit)
      (57 * n + 29 + 2) program (.start (String.ofList (nested n))) := by
    apply runsOut_sequence_of_meets
    intro m
    refine meets_onStack ?_ m
    apply meets_space
    intro blanks d hread hblank hstops
    have hremaining := hread.remaining_eq
    rw [Cursor.remaining_start, String.toList_ofList, ← List.append_nil (nested n)] at hremaining
    have hstart := stops_nested (k := isSpace) rfl n []
    obtain ⟨-, hd⟩ := (run_nil isSpace).append_inj hblank hstart hstops hremaining
    exact runsOut_nested n hd.symm
  refine read_eq_error_iff_run.2 (hprogram stackFrames ?_)
  rw [stackFrames]
  omega

theorem evaluateText_nested (e : Evaluator) (hn : 17 ≤ n) :
    e.evaluateText (String.ofList (nested n)) = .ok (.failed tooDeepProblem) := by
  have hread := read_nested hn
  rw [read] at hread
  rw [Evaluator.evaluateText]
  cases hat : readAt (String.ofList (nested n)) with
  | error fault =>
      obtain rfl : fault = .tooDeep := by simpa [hat, Except.map] using hread
      rfl
  | ok reading => simp [hat, Except.map] at hread

end ParserKit.Arith
