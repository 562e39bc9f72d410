import Mathlib
import ParserKit.Proofs.Arith.Formula

/-!
# When evaluation answers

Evaluating a text comes to a value or to a problem, unless a numeral is too
long: a run of digits in the text that cannot be read, or an integer in a
message that cannot be written.  In a width whose products can be written no
message is too long, so that only the text and the store can hold such
numerals.
-/

namespace ParserKit.Arith

open CharClass

/-! ## Integers that can be written -/

/-- The greatest width in which products of two integers can be written. -/
def productWidth : Int := 7143

/-- Below this bound all products in a width stay, sums and differences as well. -/
theorem square_lt_powerOfTen {bits : Int} (h : bits ≤ productWidth) :
    2 ^ (bits.toNat - 1) * 2 ^ (bits.toNat - 1) + 1 < Decimal.powerOfTen Decimal.digitLimit := by
  have hmono : ∀ n, bits.toNat - 1 ≤ n →
      2 ^ (bits.toNat - 1) * 2 ^ (bits.toNat - 1) ≤ 2 ^ n * 2 ^ n := by
    intro n hn
    have hpow : 2 ^ (bits.toNat - 1) ≤ 2 ^ n := Nat.pow_le_pow_right Nat.two_pos hn
    exact Nat.mul_le_mul hpow hpow
  have hexponent : bits.toNat - 1 ≤ 7142 := by
    rw [productWidth] at h
    omega
  exact Nat.lt_of_le_of_lt (Nat.succ_le_succ (hmono 7142 hexponent)) (by decide +kernel)

theorem powerOfTen_le_powerOfTen {m n : Nat} (h : m ≤ n) :
    Decimal.powerOfTen m ≤ Decimal.powerOfTen n :=
  Nat.pow_le_pow_right (Nat.succ_pos 9) h

theorem value_lt_powerOfTen {digits : List Char} (h : Run isDigit digits) :
    Decimal.value digits < Decimal.powerOfTen digits.length := by
  have hdigit : ∀ ch, isDigit ch = true → ch.toNat - '0'.toNat ≤ 9 := by
    intro ch hch
    simp only [isDigit, Bool.and_eq_true, decide_eq_true_eq, Char.le_def,
      UInt32.le_iff_toNat_le] at hch
    have h9 : '9'.val.toNat = 57 := rfl
    have h0 : '0'.toNat = 48 := rfl
    change ch.val.toNat - _ ≤ 9
    omega
  have hstep : ∀ start, Nat.ofDigitChars 10 digits start < (start + 1) * 10 ^ digits.length := by
    induction digits with
    | nil => intro start; simp
    | cons ch more ih =>
        intro start
        have hch := hdigit ch (h ch List.mem_cons_self)
        have hmore := ih (fun ch hmem => h ch (List.mem_cons_of_mem _ hmem))
          (10 * start + (ch.toNat - '0'.toNat))
        rw [Nat.ofDigitChars_cons, List.length_cons, Nat.pow_succ]
        calc
          _ < (10 * start + (ch.toNat - '0'.toNat) + 1) * 10 ^ more.length := hmore
          _ ≤ ((start + 1) * 10) * 10 ^ more.length := Nat.mul_le_mul_right _ (by omega)
          _ = (start + 1) * (10 ^ more.length * 10) := by ring
  have hzero := hstep 0
  rwa [Nat.zero_add, Nat.one_mul] at hzero

theorem writable_value {digits : List Char} (h : Run isDigit digits)
    (hlength : digits.length ≤ Decimal.digitLimit) : Writable (Decimal.value digits) := by
  rw [Writable, Int.natAbs_natCast]
  exact Nat.lt_of_lt_of_le (value_lt_powerOfTen h) (powerOfTen_le_powerOfTen hlength)

theorem Writable.neg {v : Int} (h : Writable v) : Writable (-v) := by
  rwa [Writable, Int.natAbs_neg]

/-! ## Literals -/

/-- All literals of a formula can be written. -/
def Formula.LiteralsWritable : Formula → Prop
  | literal v _ => Writable v
  | name _ _ => True
  | minus body => body.LiteralsWritable
  | binary _ left right _ => left.LiteralsWritable ∧ right.LiteralsWritable

theorem literalsWritable_eraseSpans (formula : Formula) :
    formula.eraseSpans.LiteralsWritable ↔ formula.LiteralsWritable := by
  induction formula with
  | literal v span | name s span => rfl
  | minus body ih => exact ih
  | binary operator left right span ihleft ihright => exact and_congr ihleft ihright

/-- The formula of a tree has literals that can be written, and so has one that
a tail joins to such a formula. -/
def WritesLiterals : Part → Node → Prop
  | .operand, tree | .level _, tree =>
      ∀ formula, tree.formula? = some formula → formula.LiteralsWritable
  | .tail _, tree => ∀ left formula, left.LiteralsWritable →
      tree.joined? left = some formula → formula.LiteralsWritable

variable {part : Part} {ts : List Token} {tree : Node} {s : List Char}

theorem Derives.writesLiterals (h : Derives part ts tree)
    (hts : ∀ n, Token.number n ∈ ts → Writable n) : WritesLiterals part tree := by
  induction h with
  | paren _ ih =>
      exact ih fun n hn => hts n (List.mem_cons_of_mem _ (List.mem_append_left _ hn))
  | number n =>
      rintro formula ⟨⟩
      exact hts n List.mem_cons_self
  | name s =>
      rintro formula ⟨⟩
      trivial
  | @minus ts operand hoperand ih =>
      have hbody := ih fun n hn => hts n (List.mem_cons_of_mem _ hn)
      intro formula hformula
      rcases number_or_forall_ne operand with ⟨v, span, rfl⟩ | hnumber
      · obtain rfl : Formula.literal (-v) span = formula := by
          simpa [Node.formula?] using hformula
        exact (hbody _ rfl : Writable v).neg
      · rw [formula?_negate hnumber, Option.map_eq_some_iff] at hformula
        obtain ⟨body, hsome, rfl⟩ := hformula
        exact hbody body hsome
  | plus _ ih => exact ih fun n hn => hts n (List.mem_cons_of_mem _ hn)
  | @chain l us vs head tail _ _ ihhead ihtail =>
      intro formula hformula
      rw [Node.formula?, Option.bind_eq_some_iff] at hformula
      obtain ⟨left, hleft, hjoined⟩ := hformula
      have hhead : WritesLiterals l.part head :=
        ihhead fun n hn => hts n (List.mem_append_left _ hn)
      have hliterals : left.LiteralsWritable := by
        cases l <;> exact hhead left hleft
      exact ihtail (fun n hn => hts n (List.mem_append_right _ hn)) left formula hliterals hjoined
  | done l =>
      rintro left formula hleft ⟨⟩
      exact hleft
  | @step l op us vs operand rest _ _ _ ihoperand ihrest =>
      intro left formula hleft hformula
      rw [Node.joined?, Option.bind_eq_some_iff] at hformula
      obtain ⟨right, hright, hjoined⟩ := hformula
      have hoperand : WritesLiterals l.part operand :=
        ihoperand fun n hn => hts n (List.mem_cons_of_mem _ (List.mem_append_left _ hn))
      have hliterals : right.LiteralsWritable := by
        cases l <;> exact hoperand right hright
      exact ihrest (fun n hn => hts n (List.mem_cons_of_mem _ (List.mem_append_right _ hn)))
        (.binary op left right none) formula ⟨hleft, hliterals⟩ hjoined

/-- The digits of a number stand in the text. -/
theorem Spaced.exists_digits (h : Spaced ts s) {n : Nat} (hn : Token.number n ∈ ts) :
    ∃ digits, digits <:+: s ∧ Run isDigit digits ∧ Decimal.value digits = n := by
  induction h with
  | nil => exact absurd hn List.not_mem_nil
  | @cons t ts blanks word s hblank hword more ih =>
      rcases List.mem_cons.1 hn with rfl | hmore
      · cases hword with
        | number hne hdigits =>
            exact ⟨word, ⟨blanks, s, by rw [List.append_assoc]⟩, hdigits, rfl⟩
      · obtain ⟨digits, hinfix, hdigits, hvalue⟩ := ih hmore
        have hsuffix : s <:+ blanks ++ (word ++ s) :=
          (List.suffix_append _ _).trans (List.suffix_append _ _)
        exact ⟨digits, hinfix.trans hsuffix.isInfix, hdigits, hvalue⟩

theorem literalsWritable_of_read {text : String} {formula : Formula}
    (hread : read text = .ok (some tree)) (hshort : ShortRuns text.toList)
    (hformula : tree.formula? = some formula) : formula.LiteralsWritable := by
  have hrenders := read_sound text
  rw [hread] at hrenders
  obtain ⟨ts, hderives, hspaced⟩ := hrenders
  have hwrites : WritesLiterals (.level .expression) tree.eraseSpans := by
    apply hderives.writesLiterals
    intro n hn
    obtain ⟨digits, hinfix, hdigits, rfl⟩ := hspaced.exists_digits hn
    exact writable_value hdigits (hshort digits hinfix hdigits)
  rw [← literalsWritable_eraseSpans]
  apply hwrites
  rw [(formula?_eraseSpans tree).1, hformula, Option.map_some]

/-! ## Values and problems in a width -/

/-- No double has a larger integer part: 53 bits of mantissa, moved up by the
greatest exponent. -/
def doubleReach : Nat := 2 ^ 53 * 2 ^ 972

theorem doubleReach_lt_powerOfTen :
    doubleReach < Decimal.powerOfTen Decimal.digitLimit := by decide +kernel

theorem natAbs_truncate_le (x : Float) : (Double.truncate x).natAbs ≤ doubleReach := by
  have hmantissa : (Double.parts x).1 ≤ 2 ^ 53 := by
    have hfraction : x.toBits.toNat % Double.hiddenBit < 2 ^ 52 := Nat.mod_lt _ (by decide)
    have hhidden : Double.hiddenBit = 2 ^ 52 := by decide
    rw [Double.parts]
    split <;> dsimp only <;> omega
  have hexponent : (Double.parts x).2.toNat ≤ 972 := by
    have hfield : (x.toBits.toNat >>> 52) % 2048 < 2048 := Nat.mod_lt _ (by decide)
    rw [Double.parts, Double.leastExponent]
    split <;> dsimp only <;> omega
  have hpow : ∀ n, (Double.parts x).2.toNat ≤ n → 2 ^ (Double.parts x).2.toNat ≤ 2 ^ n :=
    fun n hn => Nat.pow_le_pow_right Nat.two_pos hn
  have hmagnitude : (Double.parts x).1 <<< (Double.parts x).2.toNat >>>
      (-(Double.parts x).2).toNat ≤ doubleReach := by
    refine (Nat.shiftRight_le _ _).trans ?_
    rw [Nat.shiftLeft_eq]
    exact Nat.mul_le_mul hmantissa (hpow 972 hexponent)
  rw [Double.truncate]
  dsimp only
  split
  · rwa [Int.natAbs_neg, Int.natAbs_natCast]
  · rwa [Int.natAbs_natCast]

theorem natAbs_power_le {base exponent v : Int} (h : Double.power base exponent = .value v) :
    v.natAbs ≤ doubleReach := by
  unfold Double.power at h
  split at h
  · split at h
    · cases h
    · dsimp only at h
      split at h
      · cases h
      · cases h
        exact natAbs_truncate_le _
  · cases h

/-- The result of an operator on integers within a bound: no more than the
square of the bound, except that sums of two may exceed it by one, or else the
integer part of a double. -/
theorem Operator.natAbs_result_le {operator : Operator} {lhs rhs v : Int} {span : Option Span}
    {bound : Nat} (hlhs : lhs.natAbs ≤ bound) (hrhs : rhs.natAbs ≤ bound)
    (h : operator.result lhs rhs span = .ok v) :
    v.natAbs ≤ bound * bound + 1 ∨ v.natAbs ≤ doubleReach := by
  have hdouble : bound + bound ≤ bound * bound + 1 := by
    rcases bound with _ | _ | bound
    · decide
    · decide
    · nlinarith
  cases operator with
  | add =>
      cases h
      exact .inl ((Int.natAbs_add_le lhs rhs).trans (by omega))
  | subtract =>
      cases h
      exact .inl ((Int.natAbs_sub_le lhs rhs).trans (by omega))
  | multiply =>
      cases h
      rw [Int.natAbs_mul]
      exact .inl ((Nat.mul_le_mul hlhs hrhs).trans (Nat.le_succ _))
  | divide =>
      rw [Operator.result] at h
      split at h
      · cases h
      · cases h
        rw [Int.natAbs_tdiv]
        exact .inl ((Nat.div_le_self _ _).trans (by omega))
  | power =>
      rw [Operator.result] at h
      split at h
      · rename_i hpower
        cases h
        exact .inr (natAbs_power_le hpower)
      · cases h
      · cases h

variable {e : Evaluator} {formula : Formula} {v : Int} {span : Option Span}

theorem inRange_eq_ok {bits w : Int} (hbits : 1 ≤ bits) (h : inRange bits v span = .ok w) :
    -2 ^ (bits.toNat - 1) ≤ w ∧ w < 2 ^ (bits.toNat - 1) := by
  rw [inRange] at h
  split at h
  · rename_i hrange
    cases h
    exact hrange.resolve_left (by omega)
  · cases h

/-- Whatever a formula comes to fits the width. -/
theorem Formula.value_fits (hbits : 1 ≤ e.settings.integerBits) (h : formula.value e = .ok v) :
    -2 ^ (e.settings.integerBits.toNat - 1) ≤ v ∧ v < 2 ^ (e.settings.integerBits.toNat - 1) := by
  cases formula with
  | literal w span => exact inRange_eq_ok hbits h
  | name s span =>
      rw [Formula.value] at h
      split at h
      · exact inRange_eq_ok hbits h
      · cases h
        have hpow : (0 : Int) < 2 ^ (e.settings.integerBits.toNat - 1) := by positivity
        omega
      · cases h
  | minus body =>
      obtain ⟨w, -, h⟩ := except_bind_eq_ok.1 h
      exact inRange_eq_ok hbits h
  | binary operator left right span =>
      obtain ⟨lhs, -, h⟩ := except_bind_eq_ok.1 h
      obtain ⟨rhs, -, h⟩ := except_bind_eq_ok.1 h
      obtain ⟨result, -, h⟩ := except_bind_eq_ok.1 h
      exact inRange_eq_ok hbits h

theorem Formula.natAbs_value_le (hbits : 1 ≤ e.settings.integerBits)
    (h : formula.value e = .ok v) : v.natAbs ≤ 2 ^ (e.settings.integerBits.toNat - 1) := by
  obtain ⟨hlow, hhigh⟩ := Formula.value_fits hbits h
  have hcast : ((2 ^ (e.settings.integerBits.toNat - 1) : Nat) : Int) =
      2 ^ (e.settings.integerBits.toNat - 1) := by push_cast; rfl
  omega

/-! ## Messages that can be written -/

/-- Every integer in the message of the problem can be written. -/
def Problem.Writes (problem : Problem) : Prop := ∀ v ∈ problem.integers, Writable v

theorem writes_of_inRange_eq_error {bits : Int} {problem : Problem} (hv : Writable v)
    (h : inRange bits v span = .error problem) : problem.Writes := by
  rw [inRange] at h
  split at h
  · cases h
  · cases h
    simpa [Problem.Writes, Problem.integers] using hv

theorem Operator.writes_of_result_eq_error {operator : Operator} {lhs rhs : Int}
    {problem : Problem} (hlhs : Writable lhs) (hrhs : Writable rhs)
    (h : operator.result lhs rhs span = .error problem) : problem.Writes := by
  cases operator with
  | add | subtract | multiply => cases h
  | divide =>
      rw [Operator.result] at h
      split at h
      · cases h
        simp [Problem.Writes, Problem.integers]
      · cases h
  | power =>
      rw [Operator.result] at h
      split at h
      · cases h
      · cases h
        simp [Problem.Writes, Problem.integers]
      · cases h
        simpa [Problem.Writes, Problem.integers] using ⟨hlhs, hrhs⟩

/-- All bound integers can be written. -/
def Evaluator.StoreWritable (e : Evaluator) : Prop :=
  ∀ name v, e.store.value? name = some v → Writable v

theorem Formula.writes_of_value_eq_error {problem : Problem}
    (hbits : 1 ≤ e.settings.integerBits) (hwidth : e.settings.integerBits ≤ productWidth)
    (hstore : e.StoreWritable) (hliterals : formula.LiteralsWritable)
    (h : formula.value e = .error problem) : problem.Writes := by
  have hsquare := square_lt_powerOfTen hwidth
  have hvalue : ∀ {part : Formula} {w : Int}, part.value e = .ok w → Writable w := by
    intro part w hw
    have hle := (Formula.natAbs_value_le hbits hw).trans (Nat.le_mul_self _)
    exact Nat.lt_of_le_of_lt (hle.trans (Nat.le_succ _)) hsquare
  induction formula with
  | literal w span => exact writes_of_inRange_eq_error hliterals h
  | name s span =>
      rw [Formula.value] at h
      split at h
      · rename_i w hw
        exact writes_of_inRange_eq_error (hstore s w hw) h
      · cases h
      · cases h
        simp [Problem.Writes, Problem.integers]
  | minus body ih =>
      rcases except_bind_eq_error.1 h with hbody | ⟨w, hbody, h⟩
      · exact ih hliterals hbody
      · exact writes_of_inRange_eq_error (hvalue hbody).neg h
  | binary operator left right span ihleft ihright =>
      rcases except_bind_eq_error.1 h with hleft | ⟨lhs, hleft, h⟩
      · exact ihleft hliterals.1 hleft
      rcases except_bind_eq_error.1 h with hright | ⟨rhs, hright, h⟩
      · exact ihright hliterals.2 hright
      rcases except_bind_eq_error.1 h with hresult | ⟨result, hresult, h⟩
      · exact Operator.writes_of_result_eq_error (hvalue hleft) (hvalue hright) hresult
      · have hlhs := Formula.natAbs_value_le hbits hleft
        have hrhs := Formula.natAbs_value_le hbits hright
        refine writes_of_inRange_eq_error ?_ h
        rcases Operator.natAbs_result_le hlhs hrhs hresult with hle | hle
        · exact Nat.lt_of_le_of_lt hle hsquare
        · exact Nat.lt_of_le_of_lt hle doubleReach_lt_powerOfTen

/-! ## Texts -/

/-- Evaluation of what is read answers, unless a message would show an integer
that cannot be written. -/
theorem evaluate_eq_ok_or_error (hbits : 0 ≤ e.settings.integerBits) {text : String}
    {tree : Node} (hread : read text = .ok (some tree)) :
    ∃ formula, tree.formula? = some formula ∧
      ((∃ evaluation, e.evaluate tree = .ok evaluation) ∨
        ∃ problem, formula.value e = .error problem ∧ ¬ problem.Writes ∧
          e.evaluate tree = .error .tooManyDigits) := by
  obtain ⟨formula, hformula⟩ := exists_formula_of_read hread
  refine ⟨formula, hformula, ?_⟩
  rw [Evaluator.evaluate]
  rcases (yields_walk hbits tree).1 walkLimit formula hformula with ⟨-, hwalk⟩ | hwalk
  · rw [hwalk]
    exact .inl ⟨_, rfl⟩
  · rw [hwalk]
    cases hvalue : formula.value e with
    | ok v => exact .inl ⟨_, rfl⟩
    | error problem =>
        rw [Except.mapError, Problem.stop]
        by_cases hwrites : ∀ v ∈ problem.integers, Writable v
        · rw [if_pos hwrites]
          exact .inl ⟨_, rfl⟩
        · rw [if_neg hwrites]
          exact .inr ⟨problem, rfl, hwrites, rfl⟩

/-- Evaluation of a text goes wrong only over a numeral beyond the limit of
digits: one that stands in the text, or an integer that a message would show.
If the text and the store hold no such numeral, evaluation answers in every
width from 1 to 7143. -/
theorem evaluateText_answers (e : Evaluator) (hbits : 0 ≤ e.settings.integerBits)
    (text : String) :
    (∀ reason, e.evaluateText text = .error reason →
      reason = .tooManyDigits ∨ ∃ run, run <:+: text.toList ∧ Run isDigit run ∧
        Decimal.digitLimit < run.length ∧ reason = .unreadable (.tooManyDigits run.length)) ∧
    (ShortRuns text.toList → e.StoreWritable → 1 ≤ e.settings.integerBits →
      e.settings.integerBits ≤ productWidth →
        ∃ evaluation, e.evaluateText text = .ok evaluation) := by
  have hsound := read_sound text
  rw [read] at hsound
  rw [Evaluator.evaluateText]
  rcases hread : readAt text with fault | ⟨_ | tree, stopped⟩
  · rw [hread] at hsound
    rcases hsound with rfl | ⟨run, hrun, hdigits, hlong, rfl⟩
    · refine ⟨fun reason h => ?_, fun _ _ _ _ => ⟨_, rfl⟩⟩
      cases h
    · refine ⟨fun reason h => ?_, fun hshort => ?_⟩
      · cases h
        exact .inr ⟨run, hrun, hdigits, hlong, rfl⟩
      · exact absurd (hshort run hrun hdigits) (Nat.not_le.2 hlong)
  · refine ⟨fun reason h => ?_, fun _ _ _ _ => ⟨_, rfl⟩⟩
    cases h
  · have htree : read text = .ok (some tree) := by
      rw [read, hread]
      rfl
    obtain ⟨formula, hformula, hevaluate⟩ := evaluate_eq_ok_or_error hbits htree
    dsimp only
    constructor
    · intro reason h
      rcases hevaluate with ⟨evaluation, hok⟩ | ⟨problem, -, -, herror⟩
      · rw [hok] at h
        cases h
      · rw [herror] at h
        cases h
        exact .inl rfl
    · intro hshort hstore hone hwidth
      rcases hevaluate with hok | ⟨problem, hvalue, hwrites, -⟩
      · exact hok
      · have hliterals := literalsWritable_of_read htree hshort hformula
        exact absurd (Formula.writes_of_value_eq_error hone hwidth hstore hliterals hvalue) hwrites

/-- A difference that leaves its width is a problem, and no more than that. -/
theorem evaluateText_answers_narrow :
    let e : Evaluator := ⟨⟨.error, 8⟩, [("x", -128)]⟩
    0 ≤ e.settings.integerBits ∧ ShortRuns "x - 1".toList ∧ e.StoreWritable ∧
      1 ≤ e.settings.integerBits ∧ e.settings.integerBits ≤ productWidth ∧
      ∃ evaluation, e.evaluateText "x - 1" = .ok evaluation := by
  intro e
  have hshort : ShortRuns "x - 1".toList := shortRuns_of_length_le (by decide)
  have hstore : e.StoreWritable := by
    intro name v hv
    rw [Store.value?_cons] at hv
    split at hv
    · cases hv
      decide +kernel
    · cases hv
  exact ⟨by decide, hshort, hstore, by decide, by decide,
    (evaluateText_answers e (by decide) "x - 1").2 hshort hstore (by decide) (by decide)⟩

/-! ## Too many digits -/

section TooManyDigits

open ParserKit.Parser

variable {rules : Rules Rule} {c : Cursor} {fault : Fault}

/-- A chain whose head ends in a fault ends in that fault. -/
theorem levelParser_eq_error (l : Level) {p : ArithParser}
    (h : p.runWith rules c = .error fault) : (levelParser l p).runWith rules c = .error fault := by
  rw [levelParser, runWith_sequence, h]
  rfl

theorem operand_eq_error {run : List Char} (hrun : Run isDigit run)
    (hlong : Decimal.digitLimit < run.length) (hc : c.remaining = run) :
    operand.runWith rules c = .error (.tooManyDigits run.length) := by
  have hne : run ≠ [] := List.length_pos_iff.1 (Nat.lt_of_le_of_lt (Nat.zero_le _) hlong)
  have hspace : Stops isSpace c.remaining := by
    have hword : Token.Written (.number (Decimal.value run)) run := .number hne hrun
    simpa [hc] using hword.stops []
  have hparen : c.remaining.head? ≠ some '(' := by
    intro hhead
    have hdigit := hrun '(' (List.mem_of_mem_head? (hc ▸ hhead))
    exact absurd hdigit (by decide)
  apply Outcome.Meets.eq_error
  refine meets_choiceOf_append [parenOperand]
    (by simpa using parenOperand_eq_none hspace hparen) ?_
  apply meets_token_of_stops _ hspace
  rw [located, meets_map, meets_withLocation]
  have hwhole : ∀ {run' : List Char} {d : Cursor}, c.Reads run' d → Run isDigit run' →
      Stops isDigit d.remaining → run' = run := by
    intro run' d hread hrun' hstops
    have htext : run ++ [] = run' ++ d.remaining := by
      rw [List.append_nil, ← hc, hread.remaining_eq]
    exact (hrun.append_inj hrun' (stops_nil _) hstops htext).1.symm
  refine meets_nat (fun hstops => ?_) (fun run' d hread hrun' hstops _ => ?_)
    fun run' d hread _ hrun' hstops hlimit => ?_
  · exact hne (hrun.eq_nil_of_stops (r := []) (by rwa [List.append_nil, ← hc]))
  · rw [hwhole hread hrun' hstops]
  · rw [hwhole hread hrun' hstops] at hlimit
    exact absurd hlimit (Nat.not_le.2 hlong)

/-- A number of too many digits is no text that evaluation can answer, whatever
its value. -/
theorem evaluateText_long_number (e : Evaluator) {run : List Char} (hrun : Run isDigit run)
    (hlong : Decimal.digitLimit < run.length) :
    e.evaluateText (String.ofList run) = .error (.unreadable (.tooManyDigits run.length)) := by
  have hprogram : program.runWith (grammar.rule roomForNesting) (.start (String.ofList run)) =
      .error (.tooManyDigits run.length) := by
    apply Outcome.Meets.eq_error
    rw [program, discardLeft, meets_sequence]
    apply meets_space
    intro blanks c hblanks hblank _
    have htext := hblanks.remaining_eq
    rw [Cursor.remaining_start, String.toList_ofList] at htext
    have hnone : blanks = [] := by
      cases blanks with
      | nil => rfl
      | cons ch more =>
          have hdigit := hrun ch (by simp [htext])
          rw [isDigit_eq_false_of_isSpace (hblank ch List.mem_cons_self)] at hdigit
          exact absurd hdigit (by simp)
    have hc : c.remaining = run := by rw [htext, hnone, List.nil_append]
    have hoperand : operand.runWith (grammar.rule roomForNesting) c = _ :=
      operand_eq_error hrun hlong hc
    have hexpression := levelParser_eq_error .expression (levelParser_eq_error .term
      (levelParser_eq_error .factor hoperand))
    rw [expression_eq, term_eq, factor_eq, hexpression]
    rfl
  have hstack : grammar.runOnStack program (.start (String.ofList run)) =
      .error (.tooManyDigits run.length) :=
    (program_approximates _).eq_of_ne hprogram (by simp)
  rw [Evaluator.evaluateText, readAt, hstack]

/-- Not every text is answered: zero may be written with too many digits. -/
theorem evaluateText_long_zero :
    ¬ ∀ (e : Evaluator) (text : String), 0 ≤ e.settings.integerBits →
      ∃ evaluation, e.evaluateText text = .ok evaluation := by
  intro h
  have hrun : Run isDigit (List.replicate 4301 '0') := by
    intro ch hch
    rw [List.eq_of_mem_replicate hch]
    decide
  have hlong : Decimal.digitLimit < (List.replicate 4301 '0').length := by
    rw [List.length_replicate]
    decide
  obtain ⟨evaluation, hok⟩ := h {} (String.ofList (List.replicate 4301 '0')) (by decide)
  rw [evaluateText_long_number {} hrun hlong] at hok
  cases hok

end TooManyDigits

end ParserKit.Arith
