import ParserKit.Definition
import ParserKit.Pattern.Grammar
import ParserKit.Proofs.Arith.Soundness
import ParserKit.Proofs.Ending

/-!
# The grammars end

The grammars of arithmetic and of patterns, the definitions of names and the
tokens that all of them start from are well-formed, so reading ends on every
text.  Every part that is repeated starts with a character of its own: an
operator, a bar, or what a basic pattern starts with.
-/

namespace ParserKit

namespace Parser

variable {R : Type → Type} {α β γ : Type} {p : Parser R α}

/-! ## Parts of rules -/

theorem WellFormed.map (h : p.WellFormed) (f : α → β) : (Parser.map p f).WellFormed :=
  ⟨h.consumes, h.guarded, h.tame⟩

/-- Behind a part that consumes, rules may be entered. -/
theorem WellFormed.sequence {q : Parser R β} (h : p.WellFormed) (hq : q.Tame)
    (combine : α → β → γ) : (Parser.sequence p q combine).WellFormed where
  consumes := .inl h.consumes
  guarded := ⟨h.guarded, .inl h.consumes⟩
  tame := ⟨h.tame, hq⟩

theorem tame_ref (rule : R α) : (ref rule).Tame := trivial

/-- Between brackets a rule may be entered at once. -/
theorem WellFormed.between {body : Parser R β} {closing : Parser R γ} (h : p.WellFormed)
    (hbody : body.Tame) (hclosing : closing.Tame) :
    (discardRight (discardLeft p body) closing).WellFormed :=
  (h.sequence hbody _).sequence hclosing _

theorem WellFormed.orElse {q : Parser R α} (h : p.WellFormed) (hq : q.WellFormed) :
    (Parser.orElse p q).WellFormed where
  consumes := ⟨h.consumes, hq.consumes⟩
  guarded := ⟨h.guarded, hq.guarded⟩
  tame := ⟨h.tame, hq.tame⟩

theorem WellFormed.choiceOf {alternatives : List (Parser R α)}
    (h : ∀ p ∈ alternatives, p.WellFormed) : (Parser.choiceOf alternatives).WellFormed where
  consumes i := (h _ (List.get_mem alternatives i)).consumes
  guarded i := (h _ (List.get_mem alternatives i)).guarded
  tame i := (h _ (List.get_mem alternatives i)).tame

theorem WellFormed.withLocation (h : p.WellFormed) : (Parser.withLocation p).WellFormed where
  consumes := ⟨1, h.consumes⟩
  guarded
    | 0 => .inl trivial
    | 1 => .inl h.guarded
    | 2 => .inl trivial
  tame
    | 0 => trivial
    | 1 => h.tame
    | 2 => trivial

theorem WellFormed.tame_many (h : p.WellFormed) : (many p).Tame := ⟨⟨h.consumes, h.tame⟩, trivial⟩

theorem WellFormed.guarded_many (h : p.WellFormed) : (many p).Guarded := ⟨h.guarded, trivial⟩

theorem wellFormed_satisfy (holds : Char → Bool) :
    (satisfy holds : Parser R Char).WellFormed :=
  ⟨trivial, trivial, trivial⟩

/-! ## Tokens -/

theorem guarded_space : (space : Parser R Unit).Guarded := (wellFormed_satisfy _).guarded_many

theorem tame_space : (space : Parser R Unit).Tame := (wellFormed_satisfy _).tame_many

theorem WellFormed.token (h : p.WellFormed) : (Parser.token p).WellFormed where
  consumes := .inl (.inr h.consumes)
  guarded := ⟨⟨guarded_space, .inr h.guarded⟩, .inr guarded_space⟩
  tame := ⟨⟨tame_space, h.tame⟩, tame_space⟩

theorem wellFormed_symbol {s : String} (hs : s ≠ "") : (symbol s : Parser R String).WellFormed :=
  WellFormed.token ⟨hs, trivial, trivial⟩

theorem wellFormed_ident : (ident : Parser R String).WellFormed :=
  (wellFormed_satisfy _).sequence (wellFormed_satisfy _).tame_many _

theorem isPlain_tooManyDigits (digits : Nat) : (Fault.tooManyDigits digits).IsPlain :=
  ⟨nofun, fun _ => nofun⟩

theorem isPlain_of_natOfDigits {digits : List Char} {fault : Fault}
    (h : natOfDigits digits = .error fault) : fault.IsPlain := by
  rw [natOfDigits] at h
  cases hread : Decimal.read digits with
  | ok n => simp [hread] at h
  | error excess =>
      obtain rfl : Fault.tooManyDigits digits.length = fault := by simpa [hread] using h
      exact isPlain_tooManyDigits digits.length

theorem wellFormed_nat : (nat : Parser R Nat).WellFormed where
  consumes := trivial
  guarded := trivial
  tame := ⟨⟨trivial, trivial⟩, fun _ _ h => isPlain_of_natOfDigits h⟩

end Parser

open ParserKit.Parser

/-! ## Arithmetic -/

namespace Arith

/-- The parsers of all rules and of the alternatives of an operand. -/
def ruleParsers : List ArithParser :=
  [parenOperand, numberOperand, nameOperand, minusOperand, plusOperand, operand, operandTail,
    factor, factorTail, term, termTail, expression, program]

theorem wellFormed_parenOperand : parenOperand.WellFormed := by
  have hopening : (symbol "(" : Parser Rule String).WellFormed := wellFormed_symbol (by decide)
  have hclosing : (symbol ")" : Parser Rule String).WellFormed := wellFormed_symbol (by decide)
  exact (hopening.between (tame_ref _) hclosing.tame).map _

theorem wellFormed_numberOperand : numberOperand.WellFormed :=
  (wellFormed_nat.withLocation.map _).token

theorem wellFormed_nameOperand : nameOperand.WellFormed :=
  (wellFormed_ident.withLocation.map _).token

/-- Behind a sign any tame parser may stand. -/
theorem wellFormed_signed (op : Operator) {p : ArithParser} (hp : p.Tame) :
    (discardLeft (symbol (String.singleton op.sign)) p).WellFormed := by
  have hsign : (symbol (String.singleton op.sign) : Parser Rule String).WellFormed :=
    wellFormed_symbol (by cases op <;> decide)
  exact hsign.sequence hp _

theorem wellFormed_minusOperand : minusOperand.WellFormed :=
  (wellFormed_signed .subtract (tame_ref Rule.operand)).map Node.negate

theorem wellFormed_plusOperand : plusOperand.WellFormed :=
  wellFormed_signed .add (tame_ref Rule.operand)

theorem wellFormed_operand : operand.WellFormed := by
  apply WellFormed.choiceOf
  simp only [List.forall_mem_cons, List.not_mem_nil, false_imp_iff, implies_true, and_true]
  exact ⟨wellFormed_parenOperand, wellFormed_numberOperand, wellFormed_nameOperand,
    wellFormed_minusOperand, wellFormed_plusOperand⟩

variable {part : ArithParser}

theorem wellFormed_stepsOf (l : Level) (h : part.WellFormed) : (stepsOf l part).WellFormed := by
  apply WellFormed.choiceOf
  intro p hp
  obtain ⟨op, -, rfl⟩ := List.mem_map.1 hp
  exact (wellFormed_signed op h.tame).withLocation.map _

theorem guarded_chainOf (l : Level) (h : part.WellFormed) :
    (chainOf (l.operators.map fun op => stepOf (String.singleton op.sign) part op)).Guarded :=
  (wellFormed_stepsOf l h).guarded_many

theorem tame_chainOf (l : Level) (h : part.WellFormed) :
    (chainOf (l.operators.map fun op => stepOf (String.singleton op.sign) part op)).Tame :=
  (wellFormed_stepsOf l h).tame_many

theorem wellFormed_levelParser (l : Level) (h : part.WellFormed) :
    (levelParser l part).WellFormed :=
  h.sequence (tame_chainOf l h) _

theorem wellFormed_factor : factor.WellFormed := wellFormed_levelParser .factor wellFormed_operand

theorem wellFormed_term : term.WellFormed := wellFormed_levelParser .term wellFormed_factor

theorem wellFormed_expression : expression.WellFormed :=
  wellFormed_levelParser .expression wellFormed_term

theorem wellFormed_grammar : Grammar.WellFormed grammar
  | _, .expression => wellFormed_expression
  | _, .operand => wellFormed_operand

theorem endsOver_tail (l : Level) (h : part.WellFormed) :
    (chainOf (l.operators.map fun op => stepOf (String.singleton op.sign) part op)).EndsOver
      grammar :=
  wellFormed_grammar.endsOver (guarded_chainOf l h) (tame_chainOf l h)

theorem endsOver_program : program.EndsOver grammar :=
  wellFormed_grammar.endsOver ⟨guarded_space, .inr wellFormed_expression.guarded⟩
    ⟨tame_space, wellFormed_expression.tame⟩

theorem endsOver_of_mem_ruleParsers : ∀ p ∈ ruleParsers, p.EndsOver grammar := by
  have hrule : ∀ p : ArithParser, p.WellFormed → p.EndsOver grammar :=
    fun _ h => wellFormed_grammar.endsOver h.guarded h.tame
  simp only [ruleParsers, List.forall_mem_cons, List.not_mem_nil, false_imp_iff, implies_true,
    and_true]
  exact ⟨hrule _ wellFormed_parenOperand, hrule _ wellFormed_numberOperand,
    hrule _ wellFormed_nameOperand, hrule _ wellFormed_minusOperand,
    hrule _ wellFormed_plusOperand, hrule _ wellFormed_operand,
    endsOver_tail .factor wellFormed_operand, hrule _ wellFormed_factor,
    endsOver_tail .term wellFormed_factor, hrule _ wellFormed_term,
    endsOver_tail .expression wellFormed_term, hrule _ wellFormed_expression, endsOver_program⟩

end Arith

/-! ## Patterns -/

namespace Pattern

/-- The parsers of all rules and of the alternatives of a basic pattern. -/
def ruleParsers : List PatternParser := [plain, grouped, basic, factor, term, expression]

theorem wellFormed_plain : plain.WellFormed := (wellFormed_satisfy isPlain).map _

theorem wellFormed_grouped : grouped.WellFormed := by
  have hopening : (char '(' : Parser Rule Char).WellFormed := wellFormed_satisfy _
  have hclosing : (char ')' : Parser Rule Char).WellFormed := wellFormed_satisfy _
  exact (hopening.between (tame_ref _) hclosing.tame).map _

theorem wellFormed_basic : basic.WellFormed := wellFormed_grouped.orElse wellFormed_plain

theorem wellFormed_factor : factor.WellFormed :=
  wellFormed_basic.sequence (q := optional (map (char '*') some) none) ⟨trivial, trivial⟩ _

theorem wellFormed_term : term.WellFormed :=
  wellFormed_factor.sequence wellFormed_factor.tame_many _

theorem wellFormed_expression : expression.WellFormed := by
  have hbar : (char '|' : Parser Rule Char).WellFormed := wellFormed_satisfy _
  have hmore := hbar.sequence wellFormed_term.tame fun _ more => more
  exact wellFormed_term.sequence hmore.tame_many _

theorem wellFormed_grammar : Grammar.WellFormed grammar
  | _, .expression => wellFormed_expression

theorem endsOver_of_mem_ruleParsers : ∀ p ∈ ruleParsers, p.EndsOver grammar := by
  have hrule : ∀ p : PatternParser, p.WellFormed → p.EndsOver grammar :=
    fun _ h => wellFormed_grammar.endsOver h.guarded h.tame
  simp only [ruleParsers, List.forall_mem_cons, List.not_mem_nil, false_imp_iff, implies_true,
    and_true]
  exact ⟨hrule _ wellFormed_plain, hrule _ wellFormed_grouped, hrule _ wellFormed_basic,
    hrule _ wellFormed_factor, hrule _ wellFormed_term, hrule _ wellFormed_expression⟩

end Pattern

/-! ## Definitions -/

theorem Definition.wellFormed_parser {R : Type → Type} :
    (Definition.parser : Parser R Definition).WellFormed where
  consumes := ⟨0, wellFormed_ident.consumes⟩
  guarded
    | 0 => .inl wellFormed_ident.guarded
    | 1 => .inl trivial
    | 2 => .inl ⟨trivial, trivial⟩
    | 3 => .inl wellFormed_nat.guarded
  tame
    | 0 => wellFormed_ident.tame
    | 1 => trivial
    | 2 => ⟨trivial, trivial⟩
    | 3 => wellFormed_nat.tame

theorem NoRule.wellFormed_grammar : Grammar.WellFormed NoRule.grammar := fun _ r => nomatch r

theorem NoRule.endsOver {α : Type} {p : Parser NoRule α} (h : p.WellFormed) :
    p.EndsOver NoRule.grammar :=
  NoRule.wellFormed_grammar.endsOver h.guarded h.tame

/-- Every parser of the grammars and every token keeps the obligation that goes
with repetition, enters rules further and further in the text, and so ends. -/
theorem grammars_end :
    (∀ p ∈ Arith.ruleParsers, p.EndsOver Arith.grammar) ∧
    (∀ p ∈ Pattern.ruleParsers, p.EndsOver Pattern.grammar) ∧
    Definition.parser.EndsOver NoRule.grammar ∧ space.EndsOver NoRule.grammar ∧
    ident.EndsOver NoRule.grammar ∧ nat.EndsOver NoRule.grammar ∧
    identifier.EndsOver NoRule.grammar ∧ natural.EndsOver NoRule.grammar :=
  ⟨Arith.endsOver_of_mem_ruleParsers, Pattern.endsOver_of_mem_ruleParsers,
    NoRule.endsOver Definition.wellFormed_parser,
    NoRule.wellFormed_grammar.endsOver guarded_space tame_space,
    NoRule.endsOver wellFormed_ident, NoRule.endsOver wellFormed_nat,
    NoRule.endsOver wellFormed_ident.token, NoRule.endsOver wellFormed_nat.token⟩

/-- Two groups are opened and none is closed: three references are enough. -/
theorem grammars_end_open_groups :
    Arith.expression ∈ Arith.ruleParsers ∧ ∃ outcome, outcome ≠ .error .tooDeep ∧
      ∀ depth, 3 ≤ depth →
        Arith.expression.runWith (Grammar.rule Arith.grammar depth) (Cursor.start "((1") =
          outcome := by
  have hmem : Arith.expression ∈ Arith.ruleParsers := by
    simp only [Arith.ruleParsers, List.mem_cons, true_or, or_true]
  have hleft : (Cursor.start "((1").left = 3 := by decide
  have hends := (grammars_end.1 Arith.expression hmem).ends (Cursor.start "((1")
  rw [hleft] at hends
  exact ⟨hmem, hends⟩

end ParserKit
