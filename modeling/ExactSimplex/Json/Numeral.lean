import ExactSimplex.Text.Numeral

/-!
# Numerals of documents

A document keeps its numerals as they are spelled, so that an integer is told apart from a fractional
numeral of the same value.

Main results:

- Theorem {lit}`Json.Numeral.integer_ofInt`: the numeral of an integer is an integer token.
-/

namespace ExactSimplex
namespace Json

/-- A decimal numeral as it is spelled. -/
structure Numeral where
  negative : Bool := false
  /-- The digits before the point. -/
  whole : List Char
  /-- The digits after the point. -/
  fraction : Option (List Char) := none
  /-- Whether the exponent is negative, and its digits. -/
  exponent : Option (Bool × List Char) := none
  deriving Repr, DecidableEq

namespace Numeral

/-- The numeral of an integer. -/
def ofInt (n : Int) : Numeral where
  negative := decide (n < 0)
  whole := Text.natText n.natAbs

/-- The value of the digits before the point, with the sign, if there is neither a point nor an
exponent. -/
def integer (n : Numeral) : Option Int :=
  if n.fraction.isSome ∨ n.exponent.isSome then none
  else
    let magnitude := Nat.ofDigitChars 10 n.whole 0
    some (if n.negative then -(magnitude : Int) else magnitude)

/-- A zero with a minus sign, which is read as a fractional number. -/
def isNegativeZero (n : Numeral) : Bool :=
  n.negative && Nat.ofDigitChars 10 n.whole 0 == 0

/-- The numeral of an integer has this integer. -/
theorem integer_ofInt (n : Int) : (ofInt n).integer = some n := by
  have hdigits : Nat.ofDigitChars 10 (Text.natText n.natAbs) 0 = n.natAbs :=
    Nat.ofDigitChars_ten_toDigits
  simp only [integer, ofInt, hdigits, Option.isSome_none, Bool.false_eq_true, or_self, if_false,
    Option.some.injEq, decide_eq_true_eq]
  split <;> omega

end Numeral
end Json
end ExactSimplex
