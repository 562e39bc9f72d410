import Mathlib
import ParserKit.Proofs.Lexemes

/-!
# Decimal numerals as texts

A numeral is a run of digits, behind a minus sign if the integer is negative, and it begins with no
blank.  Different integers have different numerals.
-/

namespace ParserKit.Decimal

open CharClass

theorem run_toDigits (n : Nat) : Run isDigit (Nat.toDigits 10 n) := by
  intro ch hch
  have hdigit := Nat.isDigit_of_mem_toDigits (by decide) (by decide) hch
  simpa [isDigit, Char.isDigit, Char.le_def] using hdigit

theorem powerOfTen_eq_pow (count : Nat) : powerOfTen count = 10 ^ count := rfl

/-- The digits of the magnitude, behind a sign if the integer is negative. -/
theorem toList_numeral (v : Int) :
    (numeral v).toList =
      if v < 0 then '-' :: Nat.toDigits 10 v.natAbs else Nat.toDigits 10 v.natAbs := by
  cases v with
  | ofNat n =>
      have hnonneg : ¬ Int.ofNat n < 0 := Int.not_lt.2 (Int.natCast_nonneg n)
      rw [if_neg hnonneg]
      exact Nat.toList_repr
  | negSucc n =>
      rw [if_pos (Int.negSucc_lt_zero n)]
      change ("-" ++ (n + 1).repr).toList = _
      rw [String.toList_append, Nat.toList_repr]
      rfl

theorem numeral_injective {v w : Int} (h : numeral v = numeral w) : v = w := by
  have habs {v w : Int} (h : Nat.toDigits 10 v.natAbs = Nat.toDigits 10 w.natAbs) :
      v.natAbs = w.natAbs := by
    rw [← value_toDigits v.natAbs, h, value_toDigits]
  have hminus (n : Nat) (s : List Char) : '-' :: s ≠ Nat.toDigits 10 n := by
    intro h
    have hdigit : isDigit '-' = true := run_toDigits n '-' (h ▸ List.mem_cons_self)
    exact absurd hdigit (by decide)
  have hchars := congrArg String.toList h
  rw [toList_numeral, toList_numeral] at hchars
  split_ifs at hchars with hv hw hw
  · have := habs (List.cons.inj hchars).2
    omega
  · exact absurd hchars (hminus _ _)
  · exact absurd hchars.symm (hminus _ _)
  · have := habs hchars
    omega

theorem stops_toDigits (n : Nat) : Stops isSpace (Nat.toDigits 10 n) := by
  intro ch hch
  have hdigit := run_toDigits n ch (List.mem_of_mem_head? hch)
  exact isSpace_eq_false_of_isAlphanum (by simp [isAlphanum, hdigit])

theorem stops_numeral (v : Int) : Stops isSpace (numeral v).toList := by
  rw [toList_numeral]
  split
  · exact (stops_cons ..).2 (by decide)
  · exact stops_toDigits v.natAbs

end ParserKit.Decimal
