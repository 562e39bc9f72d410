import ParserKit.Proofs.Arith.Reading
import ParserKit.Proofs.Steady

/-!
# How an expression is laid out

`Placed part c tree d` says that the characters between two cursors spell `tree`,
and where its nodes stand: a leaf spans just its own characters, and a step all
from its sign up to the place where the next token stands, or the end.  Every
token takes the blanks behind it, so a part begins where the one before it ends.
-/

namespace ParserKit.Arith

open ParserKit.Parser CharClass

/-- The characters `word` stand between `c` and `stop`, and only blanks between
`stop` and the next token at `d`. -/
structure Word (word : List Char) (c stop d : Cursor) : Prop where
  reads : c.Reads word stop
  blanks : ∃ s, stop.Reads s d ∧ Blank s
  stops : Stops isSpace d.remaining

inductive Placed : Part → Cursor → Node → Cursor → Prop
  | paren {c stop d e stop' f : Cursor} {body : Node} (hopen : Word ['('] c stop d)
      (hbody : Placed (.level .expression) d body e) (hclose : Word [')'] e stop' f) :
      Placed .operand c (.paren body) f
  | number {c stop d : Cursor} {digits : List Char} (hne : digits ≠ [])
      (hdigits : Run isDigit digits) (hword : Word digits c stop d) :
      Placed .operand c
        (.number (Decimal.value digits) (some (.between c.location stop.location))) d
  | name {c stop d : Cursor} {ch : Char} {s : List Char} (hletter : isLetter ch = true)
      (hs : Run isAlphanum s) (hword : Word (ch :: s) c stop d) :
      Placed .operand c
        (.identifier (String.ofList (ch :: s)) (some (.between c.location stop.location))) d
  | minus {c stop d e : Cursor} {operand : Node} (hsign : Word ['-'] c stop d)
      (hoperand : Placed .operand d operand e) : Placed .operand c (.negate operand) e
  | plus {c stop d e : Cursor} {operand : Node} (hsign : Word ['+'] c stop d)
      (hoperand : Placed .operand d operand e) : Placed .operand c operand e
  | chain {l : Level} {c d e : Cursor} {head tail : Node} (hhead : Placed l.part c head d)
      (htail : Placed (.tail l) d tail e) : Placed (.level l) c (.chain l head tail) e
  | done (l : Level) (c : Cursor) : Placed (.tail l) c .done c
  | step {l : Level} {op : Operator} {c stop d e f : Cursor} {operand rest : Node}
      (hop : op ∈ l.operators) (hsign : Word [op.sign] c stop d)
      (hoperand : Placed l.part d operand e) (hrest : Placed (.tail l) e rest f) :
      Placed (.tail l) c (.step op operand rest (some (.between c.location e.location))) f

variable {rules : Rules Rule} {part : Part} {c d : Cursor} {tree : Node}

theorem Word.reaches {word : List Char} {stop : Cursor} (h : Word word c stop d) :
    c.Reaches d := by
  obtain ⟨s, hblanks, -⟩ := h.blanks
  exact ⟨word ++ s, h.reads.append hblanks⟩

theorem Placed.reaches (h : Placed part c tree d) : c.Reaches d := by
  induction h with
  | paren hopen _ hclose ih => exact hopen.reaches.trans (ih.trans hclose.reaches)
  | number _ _ hword | name _ _ hword => exact hword.reaches
  | minus hsign _ ih | plus hsign _ ih => exact hsign.reaches.trans ih
  | chain _ _ ihhead ihtail => exact ihhead.trans ihtail
  | done l c => exact .refl c
  | step _ hsign _ _ ihoperand ihrest =>
      exact hsign.reaches.trans (ihoperand.trans ihrest)

/-- No blank stands where a part ends, if none stood where it began. -/
theorem Placed.stops (h : Placed part c tree d) (hc : Stops isSpace c.remaining) :
    Stops isSpace d.remaining := by
  induction h with
  | paren _ _ hclose _ => exact hclose.stops
  | number _ _ hword | name _ _ hword => exact hword.stops
  | minus hsign _ ih | plus hsign _ ih => exact ih hsign.stops
  | chain _ _ ihhead ihtail => exact ihtail (ihhead hc)
  | done l c => exact hc
  | step _ hsign _ _ ihoperand ihrest => exact ihrest (ihoperand hsign.stops)

/-! ## What is read is placed -/

/-- Where no blank stands, a tree of the part is placed by what the step reads. -/
def Places (part : Part) (step : Cursor → Outcome Node) : Prop :=
  ∀ c, Stops isSpace c.remaining →
    (step c).Meets (fun _ => True) True fun tree d => Placed part c tree d

structure PlacesRules (rules : Rules Rule) : Prop where
  expression : Places (.level .expression) (rules .expression)
  operand : Places .operand (rules .operand)

theorem meets_symbol_word {Q : String → Cursor → Prop} {text : String}
    (hc : Stops isSpace c.remaining) (hQ : ∀ stop d, Word text.toList c stop d → Q text d) :
    ((symbol text : Parser Rule String).runWith rules c).Meets (fun _ => True) True Q := by
  apply meets_token_of_stops _ hc
  apply meets_literal text (fun _ => trivial)
  intro stop hread s d hblanks hblank hstops
  exact hQ stop d ⟨hread, ⟨s, hblanks, hblank⟩, hstops⟩

theorem places_parenOperand (hrules : PlacesRules rules) :
    Places .operand (parenOperand.runWith rules) := by
  intro c hc
  rw [parenOperand, meets_map, discardRight, meets_sequence, discardLeft, meets_sequence]
  apply meets_symbol_word hc
  intro stop d hopen
  rw [meets_ref]
  apply (hrules.expression d hopen.stops).imp
  intro body e hbody
  apply meets_symbol_word (hbody.stops hopen.stops)
  intro stop' f hclose
  exact .paren hopen hbody hclose

theorem places_numberOperand : Places .operand (numberOperand.runWith rules) := by
  intro c hc
  apply meets_token_of_stops _ hc
  rw [located, meets_map, meets_withLocation]
  apply meets_nat (fun _ => trivial) (fun _ _ _ _ _ _ => trivial)
  intro digits stop hread hne hdigits _ _ s d hblanks hblank hstops
  exact .number hne hdigits ⟨hread, ⟨s, hblanks, hblank⟩, hstops⟩

theorem places_nameOperand : Places .operand (nameOperand.runWith rules) := by
  intro c hc
  apply meets_token_of_stops _ hc
  rw [located, meets_map, meets_withLocation]
  apply meets_ident (fun _ => trivial)
  intro ch more stop hread hletter hmore _ s d hblanks hblank hstops
  exact .name hletter hmore ⟨hread, ⟨s, hblanks, hblank⟩, hstops⟩

/-- A part behind a sign. -/
theorem meets_signed_word {p : ArithParser} {Q : Node → Cursor → Prop} {text : String}
    (hp : Places part (p.runWith rules)) (hc : Stops isSpace c.remaining)
    (hQ : ∀ stop d tree e, Word text.toList c stop d → Placed part d tree e → Q tree e) :
    ((discardLeft (symbol text) p).runWith rules c).Meets (fun _ => True) True Q := by
  rw [discardLeft, meets_sequence]
  apply meets_symbol_word hc
  intro stop d hsign
  exact (hp d hsign.stops).imp fun tree e htree => hQ stop d tree e hsign htree

theorem places_operand (hrules : PlacesRules rules) :
    Places .operand (operand.runWith rules) := by
  have hoperand : Places .operand ((ref Rule.operand).runWith rules) := hrules.operand
  intro c hc
  apply meets_choiceOf _ trivial
  intro p hp
  simp only [List.mem_cons, List.not_mem_nil, or_false] at hp
  rcases hp with rfl | rfl | rfl | rfl | rfl
  · exact places_parenOperand hrules c hc
  · exact places_numberOperand c hc
  · exact places_nameOperand c hc
  · rw [minusOperand, meets_map]
    exact meets_signed_word hoperand hc fun _ _ _ _ hsign htree => .minus hsign htree
  · exact meets_signed_word hoperand hc fun _ _ _ _ hsign htree => .plus hsign htree

/-- The rounds of a chain are placed one behind the other. -/
theorem placed_of_rounds {l : Level} {p : ArithParser} (hp : Places l.part (p.runWith rules))
    {steps : List Step}
    (h : Rounds ((stepsOf l p).runWith rules) c steps d)
    (hc : Stops isSpace c.remaining) : Placed (.tail l) c (.ofSteps steps) d := by
  induction h with
  | stop => exact .done l _
  | @next c d e step more hrun _ _ ih =>
      obtain ⟨q, hq, hrun⟩ := exists_mem_of_choiceOf hrun
      obtain ⟨op, hop, rfl⟩ := List.mem_map.1 hq
      have hplaced : ((stepOf (String.singleton op.sign) p op).runWith rules c).Meets
          (fun _ => True) True fun step e => ∃ stop d operand,
            step = (op, operand, some (.between c.location e.location)) ∧
            Word [op.sign] c stop d ∧ Placed l.part d operand e := by
        rw [stepOf, meets_map, meets_withLocation]
        apply meets_signed_word hp hc
        intro stop d operand e hsign hoperand
        rw [String.toList_singleton] at hsign
        exact ⟨stop, d, operand, rfl, hsign, hoperand⟩
      rw [hrun] at hplaced
      obtain ⟨stop, d', operand, rfl, hsign, hoperand⟩ := hplaced
      exact .step hop hsign hoperand (ih (hoperand.stops hsign.stops))

theorem places_levelParser {l : Level} {p : ArithParser} (hp : Places l.part (p.runWith rules)) :
    Places (.level l) ((levelParser l p).runWith rules) := by
  intro c hc
  rw [levelParser, meets_sequence]
  apply (hp c hc).imp
  intro head d hhead
  rw [chainOf, meets_map]
  change ((many (stepsOf l p)).runWith rules d).Meets _ _ _
  rcases hrun : (many (stepsOf l p)).runWith rules d with fault | (_ | ⟨steps, e⟩)
  · trivial
  · trivial
  · exact .chain hhead (placed_of_rounds hp (rounds_of_many hrun) (hhead.stops hc))

theorem places_expression (hrules : PlacesRules rules) :
    Places (.level .expression) (expression.runWith rules) := by
  rw [expression_eq, term_eq, factor_eq]
  exact places_levelParser (places_levelParser (places_levelParser (places_operand hrules)))

theorem placesRules_rule (depth : Nat) : PlacesRules (Grammar.rule grammar depth) := by
  induction depth with
  | zero => exact ⟨fun _ _ => trivial, fun _ _ => trivial⟩
  | succ depth ih => exact ⟨places_expression ih, places_operand ih⟩

/-- The tree of a whole text is placed between the blanks in front of it and the
end. -/
theorem exists_placed_of_read {text : String} (h : read text = .ok (some tree)) :
    ∃ c d, (Cursor.start text).Reaches c ∧ Stops isSpace c.remaining ∧
      Placed (.level .expression) c tree d ∧ d.remaining = [] := by
  have hprogram : (grammar.run program (.start text)).Meets (fun _ => True) True fun tree d =>
      ∃ c, (Cursor.start text).Reaches c ∧ Stops isSpace c.remaining ∧
        Placed (.level .expression) c tree d := by
    rw [Grammar.run, program, discardLeft, meets_sequence]
    apply meets_space
    intro blanks c hblanks _ hstops
    apply (places_expression (placesRules_rule _) c hstops).imp
    exact fun tree d hplaced => ⟨c, ⟨blanks, hblanks⟩, hstops, hplaced⟩
  obtain ⟨d, hrun, hend⟩ := exists_run_of_read h
  rw [hrun] at hprogram
  obtain ⟨c, hreaches, hstops, hplaced⟩ := hprogram
  exact ⟨c, d, hreaches, hstops, hplaced, hend⟩

end ParserKit.Arith
