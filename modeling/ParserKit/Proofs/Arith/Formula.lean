import ParserKit.Proofs.Arith.Reading
import ParserKit.Proofs.Arith.Walk
import ParserKit.Proofs.Except

/-!
# Evaluation groups to the left

The reference for evaluation is the tree of binary operations in which the
chain `a op b op' c` stands as `(a op b) op' c`.  Its evaluator is a plain
recursion: the left side, then the right side, then the operator, and what comes
out has to fit the width.  The walk over the parsed tree, whose chains nest to
the right, gives the same value or reports the same problem.
-/

namespace ParserKit.Arith

/-! ## The reference -/

inductive Formula
  | literal (v : Int) (span : Option Span)
  | name (s : String) (span : Option Span)
  | minus (body : Formula)
  | binary (operator : Operator) (left right : Formula) (span : Option Span)
  deriving DecidableEq

/-- What can be wrong with a formula. -/
inductive Problem
  | outOfRange (v bits : Int) (span : Option Span)
  | unbound (name : String) (span : Option Span)
  | divisionByZero (span : Option Span)
  | zeroToNegative (span : Option Span)
  | notRepresentable (base exponent : Int) (span : Option Span)

def Problem.diagnostic : Problem → Diagnostic
  | outOfRange v bits span =>
      .report "E103"
        ("value " ++ Decimal.numeral v ++ " does not fit in " ++ toString bits ++ " bits")
        span "overflows here"
  | unbound name span =>
      .report "E101" ("unbound identifier '" ++ name ++ "'") span "not defined"
  | divisionByZero span => .report "E102" "division by zero" span "divisor is zero"
  | zeroToNegative span =>
      .report "E102" "zero cannot be raised to a negative power" span
        "negative exponent of zero"
  | notRepresentable base exponent span =>
      .report "E104"
        (Decimal.numeral base ++ " ^ " ++ Decimal.numeral exponent ++ " is not representable")
        span ""

/-- The integers that the message of a problem shows. -/
def Problem.integers : Problem → List Int
  | outOfRange v _ _ => [v]
  | notRepresentable base exponent _ => [base, exponent]
  | unbound _ _ | divisionByZero _ | zeroToNegative _ => []

/-- An integer has few enough digits to be written. -/
def Writable (v : Int) : Prop := v.natAbs < Decimal.powerOfTen Decimal.digitLimit

instance : DecidablePred Writable := fun _ => Nat.decLt _ _

/-- A problem is reported, unless its message would show too long an integer. -/
def Problem.stop (problem : Problem) : Stop :=
  if ∀ v ∈ problem.integers, Writable v then
    .reported problem.diagnostic
  else
    .aborted .tooManyDigits

/-- A value has to be a two's complement integer of the given width; for width
zero any value will do. -/
def inRange (bits v : Int) (span : Option Span) : Except Problem Int :=
  if bits = 0 ∨ -2 ^ (bits.toNat - 1) ≤ v ∧ v < 2 ^ (bits.toNat - 1) then
    .ok v
  else
    .error (.outOfRange v bits span)

def Operator.result (operator : Operator) (lhs rhs : Int) (span : Option Span) :
    Except Problem Int :=
  match operator with
  | add => .ok (lhs + rhs)
  | subtract => .ok (lhs - rhs)
  | multiply => .ok (lhs * rhs)
  | divide => if rhs = 0 then .error (.divisionByZero span) else .ok (lhs.tdiv rhs)
  | power =>
      match Double.power lhs rhs with
      | .value v => .ok v
      | .zeroToNegative => .error (.zeroToNegative span)
      | .tooLarge => .error (.notRepresentable lhs rhs span)

/-- The value of a formula, or the first problem from left to right. -/
def Formula.value (e : Evaluator) : Formula → Except Problem Int
  | literal v span => inRange e.settings.integerBits v span
  | name s span =>
      match e.store.value? s, e.settings.unbound with
      | some v, _ => inRange e.settings.integerBits v span
      | none, .zero => .ok 0
      | none, .error => .error (.unbound s span)
  | minus body => do
      let v ← body.value e
      inRange e.settings.integerBits (-v) none
  | binary operator left right span => do
      let lhs ← left.value e
      let rhs ← right.value e
      let result ← operator.result lhs rhs span
      inRange e.settings.integerBits result span

/-! ## From parsed trees to formulas -/

mutual

/-- The formula of a tree.  A minus sign right before a literal belongs to the
literal, so that only the negative value has to fit. -/
def Node.formula? : Node → Option Formula
  | .number v span => some (.literal v span)
  | .identifier name span => some (.name name span)
  | .negate operand =>
      match operand with
      | .number v span => some (.literal (-v) span)
      | _ => operand.formula?.map .minus
  | .paren body => body.formula?
  | .chain _ head tail => head.formula?.bind fun left => tail.joined? left
  | _ => none

/-- The formula of a chain whose steps so far make up `left`: each further step
takes all that stands before it as its left side. -/
def Node.joined? : Node → Formula → Option Formula
  | .done, left => some left
  | .step operator operand rest span, left =>
      operand.formula?.bind fun right => rest.joined? (.binary operator left right span)
  | _, _ => none

end

theorem number_or_forall_ne (node : Node) :
    (∃ v span, node = .number v span) ∨ ∀ v span, node ≠ .number v span := by
  cases node with
  | number v span => exact .inl ⟨v, span, rfl⟩
  | _ => exact .inr (by simp)

theorem formula?_negate {operand : Node} (h : ∀ v span, operand ≠ .number v span) :
    (Node.negate operand).formula? = operand.formula?.map .minus := by
  rw [Node.formula?]
  exact h

def Formula.eraseSpans : Formula → Formula
  | literal v _ => literal v none
  | name s _ => name s none
  | minus body => minus body.eraseSpans
  | binary operator left right _ => binary operator left.eraseSpans right.eraseSpans none

/-- How a tree is grouped does not depend on its spans. -/
theorem formula?_eraseSpans (tree : Node) :
    tree.eraseSpans.formula? = tree.formula?.map Formula.eraseSpans ∧
    ∀ left : Formula, tree.eraseSpans.joined? left.eraseSpans =
      (tree.joined? left).map Formula.eraseSpans := by
  induction tree with
  | identifier name span | number v span | done | foreign kind => exact ⟨rfl, fun _ => rfl⟩
  | negate operand ih =>
      refine ⟨?_, fun _ => rfl⟩
      rcases number_or_forall_ne operand with ⟨v, span, rfl⟩ | hoperand
      · rfl
      · have herased : ∀ v span, operand.eraseSpans ≠ .number v span := by
          intro v span h
          cases operand with
          | number v' span' => exact hoperand v' span' rfl
          | _ => simp [Node.eraseSpans] at h
        rw [Node.eraseSpans, formula?_negate hoperand, formula?_negate herased, ih.1,
          Option.map_map, Option.map_map]
        rfl
  | paren body ih => exact ⟨ih.1, fun _ => rfl⟩
  | chain level head tail ihhead ihtail =>
      refine ⟨?_, fun _ => rfl⟩
      rw [Node.eraseSpans, Node.formula?, Node.formula?, ihhead.1]
      cases head.formula? with
      | none => rfl
      | some left => exact ihtail.2 left
  | step operator operand rest span ihoperand ihrest =>
      refine ⟨rfl, fun left => ?_⟩
      rw [Node.eraseSpans, Node.joined?, Node.joined?, ihoperand.1]
      cases operand.formula? with
      | none => rfl
      | some right => exact ihrest.2 (.binary operator left right span)

/-- A tree of the grammar has a formula, and a tail joins what stands before it. -/
def Grouped : Part → Node → Prop
  | .operand, tree | .level _, tree => ∃ formula, tree.formula? = some formula
  | .tail _, tree => ∀ left, ∃ formula, tree.joined? left = some formula

theorem Derives.grouped {part : Part} {ts : List Token} {tree : Node}
    (h : Derives part ts tree) : Grouped part tree := by
  induction h with
  | paren _ ih => exact ih
  | number n => exact ⟨_, rfl⟩
  | name s => exact ⟨_, rfl⟩
  | @minus ts operand _ ih =>
      obtain ⟨body, hbody⟩ := ih
      rcases number_or_forall_ne operand with ⟨v, span, rfl⟩ | hoperand
      · exact ⟨_, rfl⟩
      · refine ⟨.minus body, ?_⟩
        rw [formula?_negate hoperand, hbody, Option.map_some]
  | plus _ ih => exact ih
  | @chain l us vs head tail _ _ ihhead ihtail =>
      have hhead : ∃ left, head.formula? = some left := by
        cases l <;> exact ihhead
      obtain ⟨left, hleft⟩ := hhead
      obtain ⟨formula, hformula⟩ := ihtail left
      refine ⟨formula, ?_⟩
      rw [Node.formula?, hleft, Option.bind_some, hformula]
  | done l => exact fun left => ⟨left, rfl⟩
  | @step l op us vs operand rest _ _ _ ihoperand ihrest =>
      have hoperand : ∃ right, operand.formula? = some right := by
        cases l <;> exact ihoperand
      intro left
      obtain ⟨right, hright⟩ := hoperand
      obtain ⟨formula, hformula⟩ := ihrest (.binary op left right none)
      refine ⟨formula, ?_⟩
      rw [Node.joined?, hright, Option.bind_some, hformula]

/-- What is read has a formula. -/
theorem exists_formula_of_read {text : String} {tree : Node}
    (h : read text = .ok (some tree)) : ∃ formula, tree.formula? = some formula := by
  have hrenders := read_sound text
  rw [h] at hrenders
  obtain ⟨ts, hderives, -⟩ := hrenders
  obtain ⟨erased, herased⟩ := hderives.grouped
  rw [(formula?_eraseSpans tree).1, Option.map_eq_some_iff] at herased
  obtain ⟨formula, hformula, -⟩ := herased
  exact ⟨formula, hformula⟩

/-! ## The walk follows the formula -/

variable {e : Evaluator} {depth : Nat} {formula left : Formula} {tree tail : Node}

theorem writeInt_eq (v : Int) :
    writeInt v = if Writable v then .ok (Decimal.numeral v)
      else .error (.aborted .tooManyDigits) := by
  unfold writeInt Decimal.write
  by_cases hshort : Writable v
  · have hbound : ¬ Decimal.powerOfTen Decimal.digitLimit ≤ v.natAbs := Nat.not_le.2 hshort
    simp only [if_pos hshort, if_neg hbound]
  · have hbound : Decimal.powerOfTen Decimal.digitLimit ≤ v.natAbs := Nat.not_lt.1 hshort
    simp only [if_neg hshort, if_pos hbound]

theorem checked_eq (hbits : 0 ≤ e.settings.integerBits) (v : Int) (span : Option Span) :
    e.checked v span = (inRange e.settings.integerBits v span).mapError Problem.stop := by
  rw [Evaluator.checked, inRange]
  by_cases hzero : e.settings.integerBits = 0
  · rw [if_pos hzero, if_pos (.inl hzero)]
    rfl
  · rw [if_neg hzero, if_neg (Int.not_lt.2 hbits)]
    by_cases hfits : fits e.settings.integerBits v = true
    · rw [if_pos hfits, if_pos (.inr ((fits_iff _ _).1 hfits))]
      rfl
    · have hout := mt (fits_iff _ _).2 hfits
      rw [if_neg hfits, if_neg (not_or.2 ⟨hzero, hout⟩), Except.mapError, Problem.stop]
      by_cases hshort : Writable v
      · rw [writeInt_eq, if_pos hshort, if_pos (by simpa [Problem.integers] using hshort)]
        rfl
      · rw [writeInt_eq, if_neg hshort, if_neg (by simpa [Problem.integers] using hshort)]

theorem nameValue_eq (hbits : 0 ≤ e.settings.integerBits) (name : String) (span : Option Span) :
    e.nameValue name span = ((Formula.name name span).value e).mapError Problem.stop := by
  rw [Evaluator.nameValue, Formula.value]
  cases e.store.value? name with
  | some v => exact checked_eq hbits v span
  | none =>
      cases e.settings.unbound with
      | zero => rfl
      | error => rfl

theorem apply_eq (operator : Operator) (lhs rhs : Int) (span : Option Span) :
    Evaluator.apply operator lhs rhs span =
      (operator.result lhs rhs span).mapError Problem.stop := by
  cases operator with
  | add | subtract | multiply => rfl
  | divide =>
      rw [Evaluator.apply, divide, Operator.result]
      by_cases hzero : rhs = 0
      · rw [if_pos hzero, if_pos hzero]
        rfl
      · rw [if_neg hzero, if_neg hzero, truncatingDiv_eq_tdiv]
        rfl
  | power =>
      rw [Evaluator.apply, Evaluator.power, Operator.result]
      cases Double.power lhs rhs with
      | value v => rfl
      | zeroToNegative => rfl
      | tooLarge =>
          simp only [Except.mapError, Problem.stop]
          by_cases hbase : Writable lhs
          · by_cases hexponent : Writable rhs
            · rw [writeInt_eq, writeInt_eq, if_pos hbase, if_pos hexponent,
                if_pos (by simp [Problem.integers, hbase, hexponent])]
              rfl
            · rw [writeInt_eq, writeInt_eq, if_pos hbase, if_neg hexponent,
                if_neg (by simp [Problem.integers, hexponent])]
              rfl
          · rw [writeInt_eq, if_neg hbase, if_neg (by simp [Problem.integers, hbase])]
            rfl

/-- A problem of the left side is the problem of the whole chain. -/
theorem value_eq_error_of_joined {problem : Problem} (h : tail.joined? left = some formula)
    (hleft : left.value e = .error problem) : formula.value e = .error problem := by
  induction tail generalizing left with
  | done =>
      obtain rfl : left = formula := by simpa [Node.joined?] using h
      exact hleft
  | step operator operand rest span _ ih =>
      rw [Node.joined?, Option.bind_eq_some_iff] at h
      obtain ⟨right, -, hrest⟩ := h
      apply ih hrest
      rw [Formula.value, hleft]
      rfl
  | _ => simp [Node.joined?] at h

/-- A walk comes to what is due, unless the tree is deep and it runs out of depth. -/
def Yields (deep : Prop) (run : Walk Int) (due : Except Problem Int) : Prop :=
  deep ∧ run = .error .tooDeep ∨ run = due.mapError Problem.stop

variable {deep deep' : Prop} {run : Walk Int} {due : Except Problem Int}

theorem Yields.mono (h : Yields deep run due) (hdeep : deep → deep') : Yields deep' run due := by
  rcases h with ⟨hd, hrun⟩ | hrun
  · exact .inl ⟨hdeep hd, hrun⟩
  · exact .inr hrun

theorem Yields.bind {next : Int → Walk Int} {dueNext : Int → Except Problem Int}
    (h : Yields deep run due)
    (hnext : ∀ v, due = .ok v → Yields deep (next v) (dueNext v)) :
    Yields deep (run >>= next) (due >>= dueNext) := by
  rcases h with ⟨hd, rfl⟩ | rfl
  · exact .inl ⟨hd, rfl⟩
  · cases due with
    | error problem => exact .inr rfl
    | ok v => exact hnext v rfl

theorem yields_checked (hbits : 0 ≤ e.settings.integerBits) (v : Int) (span : Option Span) :
    Yields deep (e.checked v span) (inRange e.settings.integerBits v span) :=
  .inr (checked_eq hbits v span)

/-- A chain whose steps so far yield `left` yields the formula of all its steps. -/
theorem Yields.walkSteps (h : Yields deep run (left.value e))
    (hjoined : tail.joined? left = some formula)
    (hsteps : ∀ v, left.value e = .ok v →
      Yields deep (e.walkSteps depth v tail) (formula.value e)) :
    Yields deep (run >>= fun v => e.walkSteps depth v tail) (formula.value e) := by
  rcases h with ⟨hd, rfl⟩ | rfl
  · exact .inl ⟨hd, rfl⟩
  · cases hleft : left.value e with
    | error problem =>
        rw [value_eq_error_of_joined hjoined hleft]
        exact .inr rfl
    | ok v => exact hsteps v hleft

theorem yields_takeStep {operator : Operator} {operand : Node} {right : Formula} {v : Int}
    (hbits : 0 ≤ e.settings.integerBits) (hleft : left.value e = .ok v)
    (hright : Yields deep (e.walk depth operand) (right.value e)) (span : Option Span) :
    Yields deep (e.takeStep depth v operator operand span)
      ((Formula.binary operator left right span).value e) := by
  rw [Evaluator.takeStep, Formula.value, hleft]
  apply hright.bind
  intro rhs _
  apply Yields.bind (.inr (apply_eq operator v rhs span))
  intro result _
  exact yields_checked hbits result span

/-- A walk that may not enter a node runs out of depth. -/
theorem yields_walk_of_succ (hnode : 0 < tree.nesting)
    (h : ∀ depth, Yields (depth + 1 < tree.nesting) (e.walk (depth + 1) tree) due)
    (depth : Nat) : Yields (depth < tree.nesting) (e.walk depth tree) due := by
  cases depth with
  | zero => exact .inl ⟨hnode, e.walk_zero tree⟩
  | succ depth => exact h depth

theorem yields_walk_negate (hbits : 0 ≤ e.settings.integerBits)
    (htree : ∀ depth formula, tree.formula? = some formula →
      Yields (depth < tree.nesting) (e.walk depth tree) (formula.value e))
    (h : (Node.negate tree).formula? = some formula) :
    Yields (depth < tree.nesting) (e.walk (depth + 1) (.negate tree)) (formula.value e) := by
  rcases number_or_forall_ne tree with ⟨v, span, rfl⟩ | hnumber
  · obtain rfl : Formula.literal (-v) span = formula := by simpa [Node.formula?] using h
    rw [Evaluator.walk_negate_number]
    exact yields_checked hbits (-v) span
  · rw [formula?_negate hnumber, Option.map_eq_some_iff] at h
    obtain ⟨body, hbody, rfl⟩ := h
    rw [Evaluator.walk_negate e depth hnumber, Formula.value]
    apply (htree depth body hbody).bind
    intro v _
    exact yields_checked hbits (-v) none

/-- The walk over a tree yields its formula, and so do the steps of a chain from
the value that is reached. -/
theorem yields_walk (hbits : 0 ≤ e.settings.integerBits) (tree : Node) :
    (∀ depth formula, tree.formula? = some formula →
      Yields (depth < tree.nesting) (e.walk depth tree) (formula.value e)) ∧
    ∀ depth left formula v, tree.joined? left = some formula → left.value e = .ok v →
      Yields (depth < tree.nesting) (e.walkSteps depth v tree) (formula.value e) := by
  induction tree with
  | number v span =>
      refine ⟨fun depth formula h => ?_, fun _ _ _ _ h => by simp [Node.joined?] at h⟩
      obtain rfl : Formula.literal v span = formula := by simpa [Node.formula?] using h
      apply yields_walk_of_succ (by simp [Node.nesting])
      intro _
      exact yields_checked hbits v span
  | identifier name span =>
      refine ⟨fun depth formula h => ?_, fun _ _ _ _ h => by simp [Node.joined?] at h⟩
      obtain rfl : Formula.name name span = formula := by simpa [Node.formula?] using h
      apply yields_walk_of_succ (by simp [Node.nesting])
      intro _
      exact .inr (nameValue_eq hbits name span)
  | negate operand ih =>
      refine ⟨fun depth formula h => ?_, fun _ _ _ _ h => by simp [Node.joined?] at h⟩
      apply yields_walk_of_succ (by simp [Node.nesting])
      intro _
      exact (yields_walk_negate hbits ih.1 h).mono Nat.succ_lt_succ
  | paren body ih =>
      refine ⟨fun depth formula h => ?_, fun _ _ _ _ h => by simp [Node.joined?] at h⟩
      apply yields_walk_of_succ (by simp [Node.nesting])
      intro depth
      exact (ih.1 depth formula h).mono Nat.succ_lt_succ
  | chain level head tail ihhead ihtail =>
      refine ⟨fun depth formula h => ?_, fun _ _ _ _ h => by simp [Node.joined?] at h⟩
      rw [Node.formula?, Option.bind_eq_some_iff] at h
      obtain ⟨left, hleft, hjoined⟩ := h
      apply yields_walk_of_succ (by simp [Node.nesting])
      intro depth
      rw [Evaluator.walk_chain, Node.nesting]
      have hhead : Yields (depth + 1 < max head.nesting tail.nesting + 1) (e.walk depth head)
          (left.value e) := by
        apply (ihhead.1 depth left hleft).mono
        omega
      apply hhead.walkSteps hjoined
      intro v hv
      exact (ihtail.2 depth left formula v hjoined hv).mono (by omega)
  | step operator operand rest span ihoperand ihrest =>
      refine ⟨fun _ _ h => by simp [Node.formula?] at h, fun depth left formula v h hleft => ?_⟩
      rw [Node.joined?, Option.bind_eq_some_iff] at h
      obtain ⟨right, hright, hjoined⟩ := h
      rw [Evaluator.walkSteps_step, Node.nesting]
      have hstep : Yields (depth < max operand.nesting rest.nesting)
          (e.takeStep depth v operator operand span)
          ((Formula.binary operator left right span).value e) := by
        apply yields_takeStep hbits hleft
        exact (ihoperand.1 depth right hright).mono (by omega)
      apply hstep.walkSteps hjoined
      intro next hnext
      exact (ihrest.2 depth _ formula next hjoined hnext).mono (by omega)
  | done =>
      refine ⟨fun _ _ h => by simp [Node.formula?] at h, fun depth left formula v h hleft => ?_⟩
      obtain rfl : left = formula := by simpa [Node.joined?] using h
      rw [hleft, Evaluator.walkSteps]
      exact .inr rfl
  | foreign kind =>
      exact ⟨fun _ _ h => by simp [Node.formula?] at h,
        fun _ _ _ _ h => by simp [Node.joined?] at h⟩

/-- Evaluation of what is read comes to the value, or to the first problem, of
its chains grouped to the left.  Only a tree that nests beyond the limit can be
reported as too deep instead. -/
theorem evaluate_eq_formula_value (e : Evaluator) (hbits : 0 ≤ e.settings.integerBits)
    {text : String} {tree : Node} (hread : read text = .ok (some tree))
    (hdeep : tree.nesting ≤ walkLimit ∨ e.evaluate tree ≠ .ok (.failed tooDeepProblem)) :
    ∃ formula, tree.formula? = some formula ∧
      e.evaluate tree = Evaluator.answer ((formula.value e).mapError Problem.stop) := by
  obtain ⟨formula, hformula⟩ := exists_formula_of_read hread
  refine ⟨formula, hformula, ?_⟩
  rcases (yields_walk hbits tree).1 walkLimit formula hformula with ⟨hlimit, hwalk⟩ | hwalk
  · have hproblem : e.evaluate tree = .ok (.failed tooDeepProblem) := by
      rw [Evaluator.evaluate, hwalk]
      rfl
    rcases hdeep with hnesting | hne
    · exact absurd hlimit (Nat.not_lt.2 hnesting)
    · exact absurd hproblem hne
  · rw [Evaluator.evaluate, hwalk]

/-- Ten minus three minus two is five, and not nine. -/
theorem evaluate_two_differences :
    0 ≤ ({} : Evaluator).settings.integerBits ∧ ∃ tree, read "10-3-2" = .ok (some tree) ∧
      tree.nesting ≤ walkLimit ∧ ({} : Evaluator).evaluate tree = .ok (.value 5) ∧
      ∃ formula, tree.formula? = some formula ∧ ({} : Evaluator).evaluate tree =
        Evaluator.answer ((formula.value {}).mapError Problem.stop) := by
  have hread : ∃ tree, read "10-3-2" = .ok (some tree) ∧ tree.nesting ≤ walkLimit ∧
      ({} : Evaluator).evaluate tree = .ok (.value 5) := by
    refine ⟨?_, ?_, ?_, ?_⟩
    rotate_left
    · cbv
      rfl
    · decide
    · cbv
  obtain ⟨tree, htree, hnesting, hvalue⟩ := hread
  have hformula := evaluate_eq_formula_value {} (by decide) htree (.inl hnesting)
  exact ⟨by decide, tree, htree, hnesting, hvalue, hformula⟩

end ParserKit.Arith
