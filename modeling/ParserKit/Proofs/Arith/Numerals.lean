import Mathlib
import ParserKit.Command.Run
import ParserKit.Proofs.Arith.Answers
import ParserKit.Proofs.Arith.Settings
import ParserKit.Proofs.Decimals

/-!
# Numerals read back

An integer is written as a run of digits, behind a minus sign if it is negative.
Read as an expression, this is a literal under at most one sign, whatever digits
it has, and so its value is checked once, sign included.  What evaluation prints
is therefore an expression of the same value.
-/

namespace ParserKit.Arith

open ParserKit.Parser CharClass Decimal

/-- The operand that an integer is written as. -/
def Node.literal (v : Int) (span : Option Span) : Node :=
  if v < 0 then .negate (.number (-v) span) else .number v span

/-- An expression of one operand. -/
def Node.alone (operand : Node) : Node :=
  .chain .expression (.chain .term (.chain .factor operand .done) .done) .done

variable {v : Int} {span : Option Span}

/-! ## Reading to the end of a text -/

section Reading

variable {rules : Rules Rule} {c : Cursor} {digits : List Char}

/-- The step reads all that remains as one of these nodes. -/
def ReadsAll (run : Cursor → Outcome Node) (c : Cursor) (P : Node → Prop) : Prop :=
  (run c).Meets (fun _ => False) False fun found d => P found ∧ d.remaining = []

theorem readsAll_levelParser (l : Level) {part : ArithParser} {P : Node → Prop}
    (h : ReadsAll (part.runWith rules) c P) :
    ReadsAll ((levelParser l part).runWith rules) c fun found =>
      ∃ head, P head ∧ found = .chain l head .done := by
  rw [ReadsAll, levelParser, meets_sequence]
  apply h.imp
  rintro head d ⟨hP, hd⟩
  rw [chainOf, meets_map]
  -- Nothing remains, so no step is taken.
  apply meets_many_of_invariant _ (fun steps e => steps = [] ∧ e.remaining = []) ⟨rfl, hd⟩
  rintro steps e ⟨rfl, he⟩
  have hend : (∃ head', P head' ∧ Node.chain l head (Node.ofSteps []) = .chain l head' .done) ∧
      e.remaining = [] := ⟨⟨head, hP, rfl⟩, he⟩
  apply meets_choiceOf _ hend
  intro q hq
  obtain ⟨op, -, rfl⟩ := List.mem_map.1 hq
  have hnone : (stepOf (String.singleton op.sign) part op).runWith rules e = .ok none :=
    stepOf_eq_none (he ▸ stops_nil isSpace) (by simp [he])
  rw [hnone]
  exact hend

theorem readsAll_expression {P : Node → Prop} (h : ReadsAll (operand.runWith rules) c P) :
    ReadsAll (expression.runWith rules) c fun found => ∃ node, P node ∧ found = .alone node := by
  have hall := readsAll_levelParser .expression (readsAll_levelParser .term
    (readsAll_levelParser .factor h))
  rw [← factor_eq, ← term_eq, ← expression_eq] at hall
  apply hall.imp
  rintro found d ⟨⟨_, ⟨_, ⟨node, hP, rfl⟩, rfl⟩, rfl⟩, hd⟩
  exact ⟨⟨node, hP, rfl⟩, hd⟩

theorem exists_number_of_eraseSpans {node : Node} (h : node.eraseSpans = .number v none) :
    ∃ span, node = .number v span := by
  cases node with
  | number w span =>
      obtain rfl : w = v := by simpa [Node.eraseSpans] using h
      exact ⟨span, rfl⟩
  | _ => simp [Node.eraseSpans] at h

theorem readsAll_digits (hne : digits ≠ []) (hdigits : Run isDigit digits)
    (hshort : digits.length ≤ Decimal.digitLimit) (hc : c.remaining = digits) :
    ReadsAll (operand.runWith rules) c fun found =>
      ∃ span, found = .number (Decimal.value digits) span := by
  obtain ⟨ch, more, rfl⟩ := List.exists_cons_of_ne_nil hne
  have hdigit : isDigit ch = true := hdigits ch List.mem_cons_self
  have hspace : Stops isSpace c.remaining := by
    rw [hc]
    exact (stops_cons ..).2 (isSpace_eq_false_of_isAlphanum (by simp [isAlphanum, hdigit]))
  have hparen : c.remaining.head? ≠ some '(' := by
    rw [hc]
    rintro ⟨⟩
    exact absurd hdigit (by decide)
  refine meets_choiceOf_append [parenOperand]
    (by simpa using parenOperand_eq_none hspace hparen) ?_
  have hrest : Follows .operand [] := by simp [Follows]
  apply (meets_numberOperand hne hdigits (run_nil isSpace) hrest hshort hspace
    (by simpa using hc)).imp
  rintro found d ⟨hfound, hd⟩
  exact ⟨exists_number_of_eraseSpans hfound, hd⟩

/-- What stands behind a minus sign is read by the rule for operands. -/
theorem readsAll_minus {P : Node → Prop} (hstops : Stops isSpace digits)
    (hrule : ∀ d, d.remaining = digits → ReadsAll (rules .operand) d P)
    (hc : c.remaining = '-' :: digits) :
    ReadsAll (operand.runWith rules) c fun found => ∃ node, P node ∧ found = .negate node := by
  have hspace : Stops isSpace c.remaining := by
    rw [hc]
    exact (stops_cons ..).2 (by decide)
  refine meets_choiceOf_append [parenOperand, numberOperand, nameOperand]
    (unsigned_eq_none .subtract hspace (by rw [hc]; rfl)) ?_
  rw [minusOperand, meets_map, discardLeft, meets_sequence]
  refine meets_symbol_of_remaining "-" hc hspace (run_nil isSpace) hstops fun d hd => ?_
  rw [meets_ref]
  apply (hrule d hd).imp
  rintro node e ⟨hP, he⟩
  exact ⟨⟨node, hP, rfl⟩, he⟩

end Reading

/-! ## Numerals -/

theorem length_toDigits_le (h : Writable v) :
    (Nat.toDigits 10 v.natAbs).length ≤ Decimal.digitLimit := by
  rw [Writable, powerOfTen_eq_pow] at h
  exact (Nat.length_toDigits_le_iff (by decide) (by decide)).2 h

theorem readsAll_numeral (depth : Nat) (hv : Writable v) {c : Cursor}
    (hc : c.remaining = (Decimal.numeral v).toList) :
    ReadsAll (operand.runWith (Grammar.rule grammar (depth + 1))) c fun found =>
      ∃ span, found = .literal v span := by
  have hdigits := run_toDigits v.natAbs
  have hlength := length_toDigits_le hv
  rw [toList_numeral] at hc
  by_cases hneg : v < 0
  · rw [if_pos hneg] at hc
    have hrule : ∀ d, d.remaining = Nat.toDigits 10 v.natAbs →
        ReadsAll (Grammar.rule grammar (depth + 1) .operand) d fun found =>
          ∃ span, found = .number (Decimal.value (Nat.toDigits 10 v.natAbs)) span :=
      fun d hd => readsAll_digits Nat.toDigits_ne_nil hdigits hlength hd
    apply (readsAll_minus (stops_toDigits v.natAbs) hrule hc).imp
    rintro found d ⟨⟨_, ⟨span, rfl⟩, rfl⟩, hd⟩
    refine ⟨⟨span, ?_⟩, hd⟩
    have hvalue : (v.natAbs : Int) = -v := by omega
    rw [Decimal.value_toDigits, hvalue, Node.literal, if_pos hneg]
  · rw [if_neg hneg] at hc
    apply (readsAll_digits Nat.toDigits_ne_nil hdigits hlength hc).imp
    rintro found d ⟨⟨span, rfl⟩, hd⟩
    refine ⟨⟨span, ?_⟩, hd⟩
    have hvalue : (v.natAbs : Int) = v := by omega
    rw [Decimal.value_toDigits, hvalue, Node.literal, if_neg hneg]

/-- A text whose first operand goes on to its end is an expression of that operand. -/
theorem exists_read_alone {text : String} {P : Node → Prop} (hstops : Stops isSpace text.toList)
    (h : ∀ c : Cursor, c.remaining = text.toList →
      ReadsAll (operand.runWith (Grammar.rule grammar roomForNesting)) c P) :
    ∃ node, P node ∧ read text = .ok (some (.alone node)) := by
  have hprogram : (program.runWith (Grammar.rule grammar roomForNesting) (.start text)).Meets
      (fun _ => False) False
      fun found d => (∃ node, P node ∧ found = .alone node) ∧ d.remaining = [] := by
    rw [program, discardLeft, meets_sequence]
    apply meets_space
    intro blanks c hread hblank hstops'
    have hremaining := hread.remaining_eq
    rw [Cursor.remaining_start] at hremaining
    obtain ⟨-, hc⟩ := (run_nil isSpace).append_inj hblank hstops hstops' hremaining
    exact readsAll_expression (h c hc.symm)
  rcases hrun : program.runWith (Grammar.rule grammar roomForNesting) (.start text) with
    fault | (_ | ⟨found, d⟩)
  · simp [hrun, Outcome.Meets] at hprogram
  · simp [hrun, Outcome.Meets] at hprogram
  · rw [hrun] at hprogram
    obtain ⟨⟨node, hP, rfl⟩, hd⟩ := hprogram
    exact ⟨node, hP, read_of_program hrun hd⟩

/-- An integer that is written can be read, as a literal with its sign. -/
theorem read_numeral (hv : Writable v) :
    ∃ span, read (Decimal.numeral v) = .ok (some (.alone (.literal v span))) := by
  obtain ⟨_, ⟨span, rfl⟩, hread⟩ := exists_read_alone (stops_numeral v) fun _ hc =>
    readsAll_numeral _ hv hc
  exact ⟨span, hread⟩

/-! ## Evaluation -/

namespace Evaluator

variable {e : Evaluator}

/-- A walk over the node comes to the check of a value, or runs out of depth. -/
def ComesToCheck (e : Evaluator) (v : Int) (span : Option Span) (node : Node) : Prop :=
  ∀ depth, e.walk depth node = e.checked v span ∨
    depth < node.nesting ∧ e.walk depth node = .error .tooDeep

theorem comesToCheck_of_succ {node : Node} (hpos : 0 < node.nesting)
    (h : ∀ depth, e.walk (depth + 1) node = e.checked v span ∨
      depth + 1 < node.nesting ∧ e.walk (depth + 1) node = .error .tooDeep) :
    e.ComesToCheck v span node := by
  intro depth
  cases depth with
  | zero => exact .inr ⟨hpos, walk_zero e node⟩
  | succ depth => exact h depth

/-- A literal is checked once, behind its sign. -/
theorem comesToCheck_literal (e : Evaluator) (v : Int) (span : Option Span) :
    e.ComesToCheck v span (.literal v span) := by
  rw [Node.literal]
  split
  · refine comesToCheck_of_succ (Nat.succ_pos _) fun depth => .inl ?_
    rw [walk_negate_number, Int.neg_neg]
  · refine comesToCheck_of_succ (Nat.succ_pos _) fun depth => .inl ?_
    rw [walk]

theorem walk_chain_done (e : Evaluator) (depth : Nat) (level : Level) (head : Node) :
    e.walk (depth + 1) (.chain level head .done) = e.walk depth head := by
  rw [walk_chain]
  rcases e.walk depth head with stop | v
  · rfl
  · change e.walkSteps depth v .done = .ok v
    rw [walkSteps]

theorem ComesToCheck.chain {head : Node} (h : e.ComesToCheck v span head) (level : Level) :
    e.ComesToCheck v span (.chain level head .done) := by
  refine comesToCheck_of_succ (Nat.succ_pos _) fun depth => ?_
  rw [walk_chain_done]
  exact (h depth).imp_right fun hdeep =>
    ⟨Nat.succ_lt_succ (hdeep.1.trans_le (Nat.le_max_left _ _)), hdeep.2⟩

theorem ComesToCheck.alone {operand : Node} (h : e.ComesToCheck v span operand) :
    e.ComesToCheck v span (.alone operand) :=
  ((h.chain .factor).chain .term).chain .expression

theorem nesting_alone_literal_le (v : Int) (span : Option Span) :
    (Node.alone (.literal v span)).nesting ≤ walkLimit := by
  rw [Node.alone, Node.literal]
  split <;> simp only [Node.nesting, walkLimit] <;> decide

theorem evaluateText_of_read (e : Evaluator) {text : String} {tree : Node}
    (h : read text = .ok (some tree)) : e.evaluateText text = e.evaluate tree := by
  rw [evaluateText]
  rcases hread : readAt text with fault | ⟨found, stopped⟩
  · simp [read, hread, Except.map] at h
  · obtain rfl : found = some tree := by simpa [read, hread, Except.map] using h
    rfl

/-- The one operand of an expression that comes to a check decides the answer. -/
theorem evaluateText_of_alone (e : Evaluator) {text : String} {node : Node}
    (hread : read text = .ok (some (.alone node))) (hcheck : e.ComesToCheck v span node)
    (hnesting : (Node.alone node).nesting ≤ walkLimit) :
    e.evaluateText text = answer (e.checked v span) := by
  have hwalk : e.walk walkLimit (.alone node) = e.checked v span :=
    (hcheck.alone walkLimit).resolve_right fun hdeep => Nat.not_lt.2 hnesting hdeep.1
  rw [e.evaluateText_of_read hread, evaluate, hwalk]

theorem evaluateText_numeral (e : Evaluator) (hv : Writable v) :
    ∃ span, e.evaluateText (Decimal.numeral v) = answer (e.checked v span) := by
  obtain ⟨span, hread⟩ := read_numeral hv
  exact ⟨span, e.evaluateText_of_alone hread (comesToCheck_literal e v span)
    (nesting_alone_literal_le v span)⟩

/-- A checked value of the width is the answer. -/
theorem answer_checked (hbits : 0 ≤ e.settings.integerBits)
    (hwidth : e.settings.integerBits = 0 ∨ InWidth e.settings.integerBits v)
    (span : Option Span) : answer (e.checked v span) = .ok (.value v) := by
  have hchecked : e.checked v span = .ok v := by
    rcases hwidth with hzero | hwidth
    · exact checked_of_unbounded hzero v span
    · exact checked_of_inWidth hbits hwidth span
  rw [hchecked]
  rfl

/-- A checked value that is not of the width is a problem. -/
theorem answer_checked_of_not_inWidth (hbits : 0 ≤ e.settings.integerBits) (hv : Writable v)
    (hzero : e.settings.integerBits ≠ 0) (hwidth : ¬ InWidth e.settings.integerBits v)
    (span : Option Span) :
    ∃ problem, answer (e.checked v span) = .ok (.failed problem) ∧ problem.code = "E103" := by
  refine ⟨(Problem.outOfRange v e.settings.integerBits span).diagnostic, ?_, rfl⟩
  have hwrites : ∀ w ∈ (Problem.outOfRange v e.settings.integerBits span).integers, Writable w :=
    fun w hw => List.mem_singleton.1 hw ▸ hv
  rw [checked_of_not_inWidth (by omega) hwidth, Problem.stop, if_pos hwrites]
  rfl

end Evaluator

theorem write_eq_ok_iff {s : String} :
    Decimal.write v = .ok s ↔ Writable v ∧ Decimal.numeral v = s := by
  rw [Decimal.write, Writable, ← Nat.not_le]
  split
  · rename_i hlong
    simp [hlong]
  · rename_i hshort
    simp [hshort]

/-- A value of the width is read back from its numeral. -/
theorem evaluateText_numeral_of_value (e : Evaluator) (hbits : 0 ≤ e.settings.integerBits)
    (hv : Writable v) (hwidth : e.settings.integerBits = 0 ∨ InWidth e.settings.integerBits v) :
    e.evaluateText (Decimal.numeral v) = .ok (.value v) := by
  obtain ⟨span, htext⟩ := e.evaluateText_numeral hv
  rw [htext, Evaluator.answer_checked hbits hwidth]

theorem evaluateText_numeral_of_not_inWidth (e : Evaluator)
    (hbits : 0 ≤ e.settings.integerBits) (hv : Writable v) (hzero : e.settings.integerBits ≠ 0)
    (hwidth : ¬ InWidth e.settings.integerBits v) :
    ∃ problem, e.evaluateText (Decimal.numeral v) = .ok (.failed problem) ∧
      problem.code = "E103" := by
  obtain ⟨span, htext⟩ := e.evaluateText_numeral hv
  rw [htext]
  exact Evaluator.answer_checked_of_not_inWidth hbits hv hzero hwidth span

theorem width_of_evaluateText {e : Evaluator} (hbits : 0 ≤ e.settings.integerBits)
    {text : String} (h : e.evaluateText text = .ok (.value v)) :
    e.settings.integerBits = 0 ∨ InWidth e.settings.integerBits v := by
  by_cases hzero : e.settings.integerBits = 0
  · exact .inl hzero
  · rcases evaluateText_cases text with ⟨tree, -, htext⟩ | ⟨answer, hvalue, htext⟩
    · rw [htext] at h
      exact .inr (Evaluator.inWidth_of_walk (by omega) (Evaluator.answer_eq_value h))
    · rw [htext] at h
      exact absurd h (hvalue v)

/-! ## What the command prints -/

section Printed

open Command

/-- What the command has printed when it ends well. -/
theorem evalWith_eq_printed {settings : Settings} {color : Bool} {definitions : List String}
    {text : String} {r : Result} (h : evalWith settings color definitions text = .ok r)
    (hexit : r.exit = 0) :
    ∃ store v s, Definition.storeOf definitions = .ok store ∧
      Evaluator.evaluateText ⟨settings.evaluation, store⟩ text = .ok (.value v) ∧
      Decimal.write v = .ok s ∧ r = printed (s ++ "\n") := by
  rw [evalWith] at h
  rcases hstore : Definition.storeOf definitions with (_ | _) | store
  · simp only [hstore, Except.ok.injEq] at h
    simp [← h, usageFailure, failed] at hexit
  · simp [hstore] at h
  · simp only [hstore] at h
    rcases hvalue : Evaluator.evaluateText ⟨settings.evaluation, store⟩ text with
      reason | v | problem
    · simp [hvalue] at h
    · rcases hwrite : Decimal.write v with excess | s
      · simp [hvalue, hwrite] at h
      · simp only [hvalue, hwrite, Except.ok.injEq] at h
        exact ⟨store, v, s, rfl, hvalue, hwrite, h.symm⟩
    · simp only [hvalue, Except.ok.injEq] at h
      simp [← h, failed] at hexit

theorem evalWith_of_value {settings : Settings} {definitions : List String} {store : Store}
    {text s : String} (hstore : Definition.storeOf definitions = .ok store)
    (hvalue : Evaluator.evaluateText ⟨settings.evaluation, store⟩ text = .ok (.value v))
    (hwrite : Decimal.write v = .ok s) (color : Bool) :
    evalWith settings color definitions text = .ok (printed (s ++ "\n")) := by
  simp only [evalWith, hstore, hvalue, hwrite]

/-- In a width an integer is the value of its numeral if it is of that width, and
a problem of width otherwise.  So what evaluates to an integer, and the text that
the command prints for it, have the same value under the same configuration. -/
theorem printed_value_reads_back (settings : Settings)
    (hbits : 0 ≤ settings.evaluation.integerBits) :
    (∀ store v, Writable v →
      (settings.evaluation.integerBits = 0 ∨ InWidth settings.evaluation.integerBits v →
        Evaluator.evaluateText ⟨settings.evaluation, store⟩ (Decimal.numeral v) =
          .ok (.value v)) ∧
      (settings.evaluation.integerBits ≠ 0 → ¬ InWidth settings.evaluation.integerBits v →
        ∃ problem,
          Evaluator.evaluateText ⟨settings.evaluation, store⟩ (Decimal.numeral v) =
            .ok (.failed problem) ∧
          problem.code = "E103")) ∧
    (∀ store text v s,
      Evaluator.evaluateText ⟨settings.evaluation, store⟩ text = .ok (.value v) →
      Decimal.write v = .ok s →
        Evaluator.evaluateText ⟨settings.evaluation, store⟩ s = .ok (.value v)) ∧
    ∀ color definitions text r, evalWith settings color definitions text = .ok r → r.exit = 0 →
      ∃ s, r.out = s ++ "\n" ∧ evalWith settings color definitions s = .ok r := by
  have hagain : ∀ store text v s,
      Evaluator.evaluateText ⟨settings.evaluation, store⟩ text = .ok (.value v) →
      Decimal.write v = .ok s →
        Evaluator.evaluateText ⟨settings.evaluation, store⟩ s = .ok (.value v) := by
    intro store text v s hvalue hwrite
    obtain ⟨hv, rfl⟩ := write_eq_ok_iff.1 hwrite
    exact evaluateText_numeral_of_value _ hbits hv (width_of_evaluateText hbits hvalue)
  refine ⟨fun store v hv => ?_, hagain, ?_⟩
  · let e : Evaluator := ⟨settings.evaluation, store⟩
    exact ⟨evaluateText_numeral_of_value e hbits hv,
      evaluateText_numeral_of_not_inWidth e hbits hv⟩
  · intro color definitions text r hrun hexit
    obtain ⟨store, v, s, hstore, hvalue, hwrite, rfl⟩ := evalWith_eq_printed hrun hexit
    exact ⟨s, rfl, evalWith_of_value hstore (hagain store text v s hvalue hwrite) hwrite color⟩

/-- The least integer of eight bits is printed and read back; the one below it
is not of the width. -/
theorem printed_value_reads_back_least :
    let settings : Settings := ⟨⟨.error, 8⟩, ⟨false⟩⟩
    0 ≤ settings.evaluation.integerBits ∧ Writable (-129) ∧ ¬ InWidth 8 (-129) ∧
      evalWith settings false ["x=127"] "-x - 1" = .ok (printed "-128\n") ∧
      evalWith settings false ["x=127"] "-128" = .ok (printed "-128\n") ∧
      ∃ problem, Evaluator.evaluateText ⟨settings.evaluation, []⟩ "-129" =
        .ok (.failed problem) ∧ problem.code = "E103" := by
  intro settings
  have hbits : 0 ≤ settings.evaluation.integerBits := by decide
  have hthree : Decimal.powerOfTen 3 ≤ Decimal.powerOfTen Decimal.digitLimit :=
    powerOfTen_le_powerOfTen (by decide)
  have hleast : Writable (-128) := Nat.lt_of_lt_of_le (by decide) hthree
  have hbelow : Writable (-129) := Nat.lt_of_lt_of_le (by decide) hthree
  have hwidth : ¬ InWidth 8 (-129) := fun h => absurd h.1 (by decide)
  have hvalue : Evaluator.evaluateText ⟨settings.evaluation, [("x", 127)]⟩ "-x - 1" =
      .ok (.value (-128)) := by cbv
  have hprinted : evalWith settings false ["x=127"] "-x - 1" = .ok (printed "-128\n") :=
    evalWith_of_value (by cbv) hvalue (write_eq_ok_iff.2 ⟨hleast, rfl⟩) false
  obtain ⟨hnumerals, -, hcommand⟩ := printed_value_reads_back settings hbits
  obtain ⟨s, hs, hagain⟩ := hcommand _ _ _ _ hprinted rfl
  obtain rfl : "-128" = s := (String.append_left_inj "\n").1 hs
  exact ⟨hbits, hbelow, hwidth, hprinted, hagain,
    (hnumerals [] (-129) hbelow).2 (by decide) hwidth⟩

end Printed

end ParserKit.Arith
