import Mathlib
import ParserKit.Proofs.Arith.Stopping
import ParserKit.Proofs.GrammarsEnd

/-!
# Alternatives in any order

A choice takes the first alternative that matches, so in general its alternatives
cannot be exchanged.  Those of arithmetic exclude one another: what an operand or
a step may be is told by the first character that is no blank, and an alternative
that does not start with it fails to match, however it would have gone on.  So
the same trees are read, with the same faults, in whatever order the alternatives
are tried.
-/

namespace ParserKit

/-- Outcomes of which one is a failure to match may stand in for each other in any order. -/
theorem Outcome.otherwise_left_comm {α : Type} {o o' : Outcome α}
    (h : o = .ok none ∨ o' = .ok none) (other : Outcome α) :
    o.otherwise (o'.otherwise other) = o'.otherwise (o.otherwise other) := by
  rcases h with rfl | rfl
  · rfl
  · rfl

namespace Parser

variable {R : Type → Type} {rules : Rules R} {ι α β γ : Type}
variable {alternatives alternatives' : List (Parser R α)}

/-- Wherever one of the alternatives succeeds or ends in a fault, all others fail to match. -/
def Exclusive (rules : Rules R) (alternatives : List (Parser R α)) : Prop :=
  ∀ c, alternatives.Pairwise fun p q =>
    p.runWith rules c = .ok none ∨ q.runWith rules c = .ok none

theorem exclusive_of_startApart
    (h : alternatives.Pairwise fun p q => StartApart (p.runWith rules) (q.runWith rules)) :
    Exclusive rules alternatives :=
  fun c => h.imp fun hapart => hapart.eq_none_or c

theorem Exclusive.perm (h : Exclusive rules alternatives)
    (hperm : alternatives.Perm alternatives') : Exclusive rules alternatives' :=
  fun c => (h c).perm hperm Or.symm

theorem runWith_choiceOf_cons_eq (p : Parser R α) (more : List (Parser R α)) (c : Cursor) :
    (choiceOf (p :: more)).runWith rules c =
      (p.runWith rules c).otherwise ((choiceOf more).runWith rules c) := by
  rw [runWith_choiceOf_cons, runWith_orElse]

/-- Alternatives that exclude one another may be tried in any order. -/
theorem runWith_choiceOf_perm (hperm : alternatives.Perm alternatives')
    (h : Exclusive rules alternatives) :
    (choiceOf alternatives).runWith rules = (choiceOf alternatives').runWith rules := by
  induction hperm with
  | nil => rfl
  | cons p _ ih =>
      have hmore := ih fun c => (h c).of_cons
      funext c
      rw [runWith_choiceOf_cons_eq, runWith_choiceOf_cons_eq, hmore]
  | swap p q more =>
      funext c
      have hboth : q.runWith rules c = .ok none ∨ p.runWith rules c = .ok none :=
        (List.pairwise_cons.1 (h c)).1 p List.mem_cons_self
      simp only [runWith_choiceOf_cons_eq]
      exact Outcome.otherwise_left_comm hboth _
  | trans hfirst _ ih ih' => exact (ih h).trans (ih' (h.perm hfirst))

/-! What a parser does is made of what its parts and its rules do. -/

theorem runWith_rules_congr {rules' : Rules R}
    (h : ∀ {β : Type} (r : R β), rules r = rules' r) (p : Parser R α) :
    p.runWith rules = p.runWith rules' := by
  obtain rfl : @rules = @rules' := by
    funext β r
    exact h r
  rfl

theorem runWith_choiceOf_map_congr {f g : ι → Parser R α}
    (h : ∀ i, (f i).runWith rules = (g i).runWith rules) (is : List ι) :
    (choiceOf (is.map f)).runWith rules = (choiceOf (is.map g)).runWith rules := by
  induction is with
  | nil => rfl
  | cons i more ih =>
      funext c
      rw [List.map_cons, List.map_cons, runWith_choiceOf_cons_eq, runWith_choiceOf_cons_eq, h i, ih]

theorem runWith_map_congr {p q : Parser R α} (h : p.runWith rules = q.runWith rules)
    (f : α → β) : (map p f).runWith rules = (map q f).runWith rules := by
  funext c
  rw [runWith_map, runWith_map, h]

theorem runWith_sequence_congr {p p' : Parser R α} {q q' : Parser R β}
    (h : p.runWith rules = p'.runWith rules) (h' : q.runWith rules = q'.runWith rules)
    (f : α → β → γ) : (sequence p q f).runWith rules = (sequence p' q' f).runWith rules := by
  funext c
  rw [runWith_sequence, runWith_sequence, h, h']

theorem runWith_withLocation_congr {p q : Parser R α} (h : p.runWith rules = q.runWith rules) :
    (withLocation p).runWith rules = (withLocation q).runWith rules := by
  funext c
  rw [runWith_withLocation, runWith_withLocation, h]

theorem runWith_many_congr {p q : Parser R α} (h : p.runWith rules = q.runWith rules) :
    (many p).runWith rules = (many q).runWith rules := by
  funext c
  simp only [many, runWith, h]

end Parser

namespace Arith

open ParserKit.Parser

/-- An order in which the alternatives of an operand are tried, and at each level its
operators. -/
structure Order where
  operands : List ArithParser
  operators : Level → List Operator
  operands_perm :
    [parenOperand, numberOperand, nameOperand, minusOperand, plusOperand].Perm operands
  operators_perm (l : Level) : l.operators.Perm (operators l)

namespace Order

/-! The grammar with its alternatives in this order. -/

variable (o : Order)

def operand : ArithParser := choiceOf o.operands

def steps (l : Level) (part : ArithParser) : List (Parser Rule Step) :=
  (o.operators l).map fun op => stepOf (String.singleton op.sign) part op

def tail (l : Level) (part : ArithParser) : ArithParser := chainOf (o.steps l part)

def level (l : Level) (part : ArithParser) : ArithParser :=
  sequence part (o.tail l part) (.chain l)

def factor : ArithParser := o.level .factor o.operand

def term : ArithParser := o.level .term o.factor

def expression : ArithParser := o.level .expression o.term

def program : ArithParser := discardLeft space o.expression

def grammar : Grammar Rule
  | _, .expression => o.expression
  | _, .operand => o.operand

/-- The parsers of all rules and of the alternatives of an operand, as they are listed for the
order in which the grammar is written. -/
def ruleParsers : List ArithParser :=
  [parenOperand, numberOperand, nameOperand, minusOperand, plusOperand, o.operand,
    o.tail .factor o.operand, o.factor, o.tail .term o.factor, o.term,
    o.tail .expression o.term, o.expression, o.program]

/-- The order in which the grammar is written. -/
def written : Order :=
  ⟨[parenOperand, numberOperand, nameOperand, minusOperand, plusOperand], Level.operators,
    .refl _, fun _ => .refl _⟩

theorem ruleParsers_written : written.ruleParsers = Arith.ruleParsers := rfl

section Rules

variable {o} {rules : Rules Rule} (hmoves : ∀ {β : Type} (r : Rule β), Moves (rules r))

include hmoves

theorem runWith_operand : o.operand.runWith rules = Arith.operand.runWith rules :=
  (runWith_choiceOf_perm o.operands_perm
    (exclusive_of_startApart (operands_startApart hmoves))).symm

theorem exclusive_steps (l : Level) (part : ArithParser) :
    Exclusive rules (l.operators.map fun op => stepOf (String.singleton op.sign) part op) :=
  exclusive_of_startApart (steps_startApart hmoves l part)

/-- The tail of a level over a part that does the same. -/
theorem runWith_tail {l : Level} {part part' : ArithParser}
    (hpart : part'.runWith rules = part.runWith rules) :
    (o.tail l part').runWith rules = (written.tail l part).runWith rules := by
  have hstep (op : Operator) :
      (stepOf (String.singleton op.sign) part' op).runWith rules =
        (stepOf (String.singleton op.sign) part op).runWith rules :=
    runWith_map_congr (runWith_withLocation_congr (runWith_sequence_congr rfl hpart _)) _
  have hchoice : (choiceOf (o.steps l part')).runWith rules =
      (choiceOf (written.steps l part)).runWith rules :=
    calc (choiceOf (o.steps l part')).runWith rules
        = (choiceOf (o.steps l part)).runWith rules := runWith_choiceOf_map_congr hstep _
      _ = (choiceOf (written.steps l part)).runWith rules :=
          (runWith_choiceOf_perm ((o.operators_perm l).map _) (exclusive_steps hmoves l part)).symm
  exact runWith_map_congr (runWith_many_congr hchoice) _

theorem runWith_level {l : Level} {part part' : ArithParser}
    (hpart : part'.runWith rules = part.runWith rules) :
    (o.level l part').runWith rules = (written.level l part).runWith rules :=
  runWith_sequence_congr hpart (runWith_tail hmoves hpart) _

theorem runWith_factor : o.factor.runWith rules = Arith.factor.runWith rules :=
  runWith_level hmoves (runWith_operand hmoves)

theorem runWith_term : o.term.runWith rules = Arith.term.runWith rules :=
  runWith_level hmoves (runWith_factor hmoves)

theorem runWith_expression : o.expression.runWith rules = Arith.expression.runWith rules :=
  runWith_level hmoves (runWith_term hmoves)

theorem runWith_ruleParsers :
    List.Forall₂ (fun p q => p.runWith rules = q.runWith rules) o.ruleParsers
      Arith.ruleParsers := by
  have hprogram : o.program.runWith rules = Arith.program.runWith rules :=
    runWith_sequence_congr rfl (runWith_expression hmoves) _
  rw [← ruleParsers_written]
  exact .cons rfl <| .cons rfl <| .cons rfl <| .cons rfl <| .cons rfl <|
    .cons (runWith_operand hmoves) <| .cons (runWith_tail hmoves (runWith_operand hmoves)) <|
    .cons (runWith_factor hmoves) <| .cons (runWith_tail hmoves (runWith_factor hmoves)) <|
    .cons (runWith_term hmoves) <| .cons (runWith_tail hmoves (runWith_term hmoves)) <|
    .cons (runWith_expression hmoves) <| .cons hprogram .nil

end Rules

/-- By induction on the references that may still be opened: a rule is entered with the rules
below it, which already agree. -/
theorem rule_grammar (depth : Nat) {α : Type} (r : Rule α) :
    Grammar.rule o.grammar depth r = Grammar.rule Arith.grammar depth r := by
  induction depth generalizing α with
  | zero => rfl
  | succ depth ih =>
      have hmoves : ∀ {β : Type} (r : Rule β), Moves (Grammar.rule Arith.grammar depth r) :=
        moves_rule Arith.grammar depth
      funext c
      rw [Grammar.rule, Grammar.rule, runWith_rules_congr ih]
      cases r with
      | expression => exact congrFun (runWith_expression hmoves) c
      | operand => exact congrFun (runWith_operand hmoves) c

end Order

/-- Of the alternatives of an operand, and of the steps of a term and of an expression, at most
one succeeds or ends in a fault; so all rules do the same in whatever order the alternatives
are tried. -/
theorem alternatives_exclusive :
    (∀ depth,
      Exclusive (Grammar.rule grammar depth)
        [parenOperand, numberOperand, nameOperand, minusOperand, plusOperand] ∧
      Exclusive (Grammar.rule grammar depth)
        [stepOf "+" term .add, stepOf "-" term .subtract] ∧
      Exclusive (Grammar.rule grammar depth)
        [stepOf "*" factor .multiply, stepOf "/" factor .divide]) ∧
    ∀ o : Order, List.Forall₂ (fun p q => ∀ c, Grammar.run o.grammar p c = Grammar.run grammar q c)
      o.ruleParsers ruleParsers := by
  constructor
  · intro depth
    have hmoves : ∀ {β : Type} (r : Rule β), Moves (Grammar.rule grammar depth r) :=
      moves_rule grammar depth
    exact ⟨exclusive_of_startApart (operands_startApart hmoves),
      Order.exclusive_steps hmoves .expression term, Order.exclusive_steps hmoves .term factor⟩
  · intro o
    apply (Order.runWith_ruleParsers (moves_rule grammar Grammar.nestingLimit)).imp
    intro p q hpq c
    rw [Grammar.run, runWith_rules_congr (o.rule_grammar _), hpq, Grammar.run]

end Arith

end ParserKit
