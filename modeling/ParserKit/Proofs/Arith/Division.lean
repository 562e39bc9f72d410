import Mathlib
import ParserKit.Proofs.Arith.Settings

/-!
# Division

Division drops the fraction of the quotient, so what remains has the sign of the dividend.  The
quotient is never greater than the dividend, and a width has one negative integer more than it has
positive ones: only the least integer divided by minus one does not fit.  That is reported as any
other value that does not fit, as long as a message can show the quotient.
-/

namespace ParserKit.Arith

variable {bits lhs rhs : Int}

/-- What remains of the dividend is smaller than the divisor and has the sign of the dividend. -/
theorem exists_remainder (lhs : Int) (h : rhs ≠ 0) :
    ∃ r, lhs = truncatingDiv lhs rhs * rhs + r ∧ |r| < |rhs| ∧ (r = 0 ∨ r.sign = lhs.sign) := by
  have hdivisor : 0 < rhs.natAbs := Int.natAbs_pos.2 h
  refine ⟨lhs.tmod rhs, ?_, ?_, ?_⟩
  · rw [truncatingDiv_eq_tdiv, Int.tdiv_mul_add_tmod]
  · rw [Int.abs_eq_natAbs, Int.abs_eq_natAbs, Int.natAbs_tmod]
    exact_mod_cast Nat.mod_lt _ hdivisor
  · rw [Int.sign_tmod]
    split
    · rename_i hdvd
      exact .inl (Int.tmod_eq_zero_of_dvd hdvd)
    · exact .inr rfl

/-! ## The quotient that does not fit -/

theorem inWidth_least (bits : Int) : InWidth bits (-2 ^ (bits.toNat - 1)) := by
  have hpow : (0 : Int) < 2 ^ (bits.toNat - 1) := by positivity
  exact ⟨le_rfl, by omega⟩

/-- The least integer of a width divided by minus one is the first one that is too large. -/
def Overflows (bits lhs rhs : Int) : Prop := lhs = -2 ^ (bits.toNat - 1) ∧ rhs = -1

instance (bits lhs rhs : Int) : Decidable (Overflows bits lhs rhs) :=
  inferInstanceAs (Decidable (_ ∧ _))

theorem Overflows.tdiv_eq (h : Overflows bits lhs rhs) : lhs.tdiv rhs = 2 ^ (bits.toNat - 1) := by
  rw [h.1, h.2, Int.tdiv_neg, Int.tdiv_one, Int.neg_neg]

/-- A quotient as great as the dividend leaves only the sign to the divisor. -/
theorem natAbs_eq_one_of_natAbs_tdiv_eq (hlhs : lhs ≠ 0)
    (h : (lhs.tdiv rhs).natAbs = lhs.natAbs) : rhs.natAbs = 1 := by
  rw [Int.natAbs_tdiv] at h
  exact (Nat.div_eq_self.1 h).resolve_left (Int.natAbs_ne_zero.2 hlhs)

theorem inWidth_tdiv_iff (hlhs : InWidth bits lhs) :
    InWidth bits (lhs.tdiv rhs) ↔ ¬ Overflows bits lhs rhs := by
  have hpow : (0 : Int) < 2 ^ (bits.toNat - 1) := by positivity
  constructor
  · intro hquotient hoverflows
    rw [hoverflows.tdiv_eq] at hquotient
    exact lt_irrefl _ hquotient.2
  · intro hno
    obtain ⟨hlow, hhigh⟩ := hlhs
    have hle := Int.natAbs_tdiv_le_natAbs lhs rhs
    refine ⟨by omega, lt_of_le_of_ne (by omega) fun hquotient => hno ?_⟩
    have hleast : lhs = -2 ^ (bits.toNat - 1) := by omega
    have hone : rhs.natAbs = 1 :=
      natAbs_eq_one_of_natAbs_tdiv_eq (by omega : lhs ≠ 0) (by omega)
    rcases Int.natAbs_eq_iff.1 hone with rfl | rfl
    · rw [Nat.cast_one, Int.tdiv_one] at hquotient
      omega
    · exact ⟨hleast, rfl⟩

/-! ## The quotient in a message -/

/-- The greatest width in which the quotient that does not fit can be written. -/
def quotientWidth : Int := 14285

theorem writable_two_pow_iff (n : Nat) : Writable (2 ^ n) ↔ n ≤ 14284 := by
  have hnat : ((2 : Int) ^ n).natAbs = 2 ^ n := Int.natAbs_pow 2 n
  rw [Writable, hnat]
  constructor
  · intro hshort
    by_contra hlarge
    have hle : 14285 ≤ n := by omega
    have hpow : 2 ^ 14285 ≤ 2 ^ n := pow_le_pow_right₀ one_le_two hle
    have hlong : Decimal.powerOfTen Decimal.digitLimit ≤ 2 ^ 14285 := by decide +kernel
    exact absurd hshort (Nat.not_lt.2 (hlong.trans hpow))
  · intro hle
    have hpow : 2 ^ n ≤ 2 ^ 14284 := pow_le_pow_right₀ one_le_two hle
    have hshort : 2 ^ 14284 < Decimal.powerOfTen Decimal.digitLimit := by decide +kernel
    exact Nat.lt_of_le_of_lt hpow hshort

theorem writable_quotient_iff : Writable (2 ^ (bits.toNat - 1)) ↔ bits ≤ quotientWidth := by
  rw [writable_two_pow_iff, quotientWidth]
  omega

/-! ## Steps -/

variable {e : Evaluator} {depth : Nat} {operand : Node}

/-- A division by zero is reported, whatever the width. -/
theorem takeStep_divide (lhs : Int) (span : Option Span) (h : e.walk depth operand = .ok rhs) :
    e.takeStep depth lhs .divide operand span =
      if rhs = 0 then
        .error (.reported (.report "E102" "division by zero" span "divisor is zero"))
      else
        e.checked (lhs.tdiv rhs) span := by
  rw [Evaluator.takeStep, h]
  change (Evaluator.apply .divide lhs rhs span >>= fun result => e.checked result span) = _
  rw [apply_eq, Operator.result]
  split <;> rfl

theorem checked_tdiv_of_overflows (hbits : 1 ≤ e.settings.integerBits)
    (h : Overflows e.settings.integerBits lhs rhs) (span : Option Span) :
    e.checked (lhs.tdiv rhs) span =
      if e.settings.integerBits ≤ quotientWidth then
        .error (.reported (.report "E103"
          ("value " ++ Decimal.numeral (2 ^ (e.settings.integerBits.toNat - 1)) ++
            " does not fit in " ++ toString e.settings.integerBits ++ " bits")
          span "overflows here"))
      else
        .error (.aborted .tooManyDigits) := by
  have hout : ¬ InWidth e.settings.integerBits (2 ^ (e.settings.integerBits.toNat - 1)) :=
    fun hfits => lt_irrefl _ hfits.2
  rw [h.tdiv_eq, Evaluator.checked_of_not_inWidth hbits hout, Problem.stop]
  simp only [Problem.integers, List.forall_mem_singleton, writable_quotient_iff]
  split <;> rfl

/-- Division rounds toward zero, and what remains has the sign of the dividend.  A step that
divides one value of a width by another reports a zero divisor; else it comes to the quotient,
except that the least integer divided by minus one is reported as too large, in the widths from 1
to 14285.  In greater ones that message would hold too many digits. -/
theorem division_overflows_once (e : Evaluator) (depth : Nat) (lhs rhs : Int) (operand : Node)
    (span : Option Span) :
    (rhs ≠ 0 →
      ∃ r, lhs = truncatingDiv lhs rhs * rhs + r ∧ |r| < |rhs| ∧ (r = 0 ∨ r.sign = lhs.sign)) ∧
    (1 ≤ e.settings.integerBits → InWidth e.settings.integerBits lhs →
      e.walk depth operand = .ok rhs →
      e.takeStep depth lhs .divide operand span =
        if rhs = 0 then
          .error (.reported (.report "E102" "division by zero" span "divisor is zero"))
        else if Overflows e.settings.integerBits lhs rhs then
          if e.settings.integerBits ≤ quotientWidth then
            .error (.reported (.report "E103"
              ("value " ++ Decimal.numeral (2 ^ (e.settings.integerBits.toNat - 1)) ++
                " does not fit in " ++ toString e.settings.integerBits ++ " bits")
              span "overflows here"))
          else
            .error (.aborted .tooManyDigits)
        else
          .ok (truncatingDiv lhs rhs)) := by
  refine ⟨exists_remainder lhs, fun hbits hlhs h => ?_⟩
  rw [takeStep_divide lhs span h]
  refine if_congr Iff.rfl rfl ?_
  by_cases hoverflows : Overflows e.settings.integerBits lhs rhs
  · rw [checked_tdiv_of_overflows hbits hoverflows, if_pos hoverflows]
  · have hfits := (inWidth_tdiv_iff hlhs).2 hoverflows
    rw [Evaluator.checked_of_inWidth (by omega) hfits, if_neg hoverflows, truncatingDiv_eq_tdiv]

/-- A negative dividend and a positive divisor, and the one quotient of eight bits that does not
fit them. -/
theorem division_overflows_once_eight_bits :
    let e : Evaluator := ⟨⟨.error, 8⟩, [("x", 2), ("y", -1)]⟩
    (∃ r, (-7 : Int) = truncatingDiv (-7) 2 * 2 + r ∧ |r| < |(2 : Int)| ∧
      (r = 0 ∨ r.sign = Int.sign (-7))) ∧
    InWidth 8 (-7) ∧ e.walk 1 (.identifier "x" none) = .ok 2 ∧
    e.takeStep 1 (-7) .divide (.identifier "x" none) none = .ok (-3) ∧
    InWidth 8 (-128) ∧ e.walk 1 (.identifier "y" none) = .ok (-1) ∧
    e.takeStep 1 (-128) .divide (.identifier "y" none) none = .error (.reported
      (.report "E103" "value 128 does not fit in 8 bits" none "overflows here")) := by
  intro e
  have hseven : InWidth 8 (-7) := ⟨by decide, by decide⟩
  have hleast : InWidth 8 (-128) := ⟨by decide, by decide⟩
  have htwo : e.walk 1 (.identifier "x" none) = .ok 2 := by decide
  have hminus : e.walk 1 (.identifier "y" none) = .ok (-1) := by decide
  obtain ⟨hremainder, hstep⟩ := division_overflows_once e 1 (-7) 2 (.identifier "x" none) none
  have hquotient := hstep (by decide) hseven htwo
  have hreport := (division_overflows_once e 1 (-128) (-1) _ none).2 (by decide) hleast hminus
  rw [if_neg (by decide), if_neg (by decide)] at hquotient
  rw [if_neg (by decide), if_pos (by decide), if_pos (by decide)] at hreport
  exact ⟨hremainder (by decide), hseven, htwo, hquotient, hleast, hminus,
    hreport.trans (by cbv)⟩

/-- In 14286 bits the quotient that does not fit has 4301 digits, so that it is not reported. -/
theorem not_reported_least_by_minus_one :
    let e : Evaluator := ⟨⟨.error, 14286⟩, [("y", -1)]⟩
    InWidth 14286 (-2 ^ 14285) ∧ InWidth 14286 (-1) ∧
    e.walk 1 (.identifier "y" none) = .ok (-1) ∧
    ∀ problem, e.takeStep 1 (-2 ^ 14285) .divide (.identifier "y" none) none ≠
      .error (.reported problem) := by
  intro e
  have hexponent : e.settings.integerBits.toNat - 1 = 14285 := by decide
  have hleast : InWidth 14286 (-2 ^ 14285) := hexponent ▸ inWidth_least e.settings.integerBits
  have hone : InWidth 14286 (-1) := (inWidth_least 1).mono (by decide)
  have hminus : e.walk 1 (.identifier "y" none) = .ok (-1) := by
    rw [Evaluator.walk, Evaluator.nameValue]
    exact Evaluator.checked_of_inWidth (e := e) (by decide) hone none
  have hoverflows : Overflows e.settings.integerBits (-2 ^ 14285) (-1) := by
    rw [Overflows, hexponent]
    exact ⟨rfl, rfl⟩
  refine ⟨hleast, hone, hminus, fun problem => ?_⟩
  rw [takeStep_divide _ none hminus, if_neg (by decide),
    checked_tdiv_of_overflows (by decide) hoverflows, if_neg (by decide)]
  simp

end ParserKit.Arith
