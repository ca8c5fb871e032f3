import ExactSimplex.Fraction.Basic
import ExactSimplex.Proofs.Refinement

/-!
# Fractions where no result is refused

An operation on fractions stores a handful of integers and branches on what it stored, so it has the same
result in every arithmetic that stores the same integers.

Main results:

- Theorem {lit}`Fraction.refines_ofRatio`: reducing a pair.
- Theorems {lit}`Fraction.refines_eq` and {lit}`Fraction.refines_lt`: comparisons.
- Theorems {lit}`Fraction.refines_sub`, {lit}`Fraction.refines_mul`, {lit}`Fraction.refines_div` and
  {lit}`Fraction.refines_fract`: the operations of a pivot and of a cut.
-/

namespace ExactSimplex
namespace Fraction

open Calc

variable {A A' : Arithmetic}

/-! ## Pairs -/

/-- Both arithmetics move the sign alike. -/
@[gcongr]
theorem refines_moveSign (hA : A.Refines A') (num den : ℤ) :
    Refines (moveSign A num den) (moveSign A' num den) := by
  unfold moveSign
  gcongr

/-- Both arithmetics reduce a pair to the same fraction. -/
@[gcongr]
theorem refines_reduce (hA : A.Refines A') (num den : ℤ) :
    Refines (reduce A num den) (reduce A' num den) := by
  refine (refines_moveSign hA num den).bind fun ⟨num, den⟩ => ?_
  dsimp only
  gcongr

/-- Both arithmetics refuse the same denominators and reduce the others alike. -/
@[gcongr]
theorem refines_tryOfRatio (hA : A.Refines A') (num den : ℤ) :
    Refines (tryOfRatio A num den) (tryOfRatio A' num den) := by
  unfold tryOfRatio
  gcongr

/-! ## Comparison -/

/-- Both arithmetics have the same cross products. -/
@[gcongr]
theorem refines_cross (hA : A.Refines A') (a b : Fraction) :
    Refines (cross A a b) (cross A' a b) := by
  unfold cross
  gcongr

/-- Both arithmetics find the same fractions equal. -/
@[gcongr]
theorem refines_eq (hA : A.Refines A') (a b : Fraction) : Refines (eq A a b) (eq A' a b) := by
  unfold eq
  gcongr

/-- Both arithmetics order fractions alike. -/
@[gcongr]
theorem refines_lt (hA : A.Refines A') (a b : Fraction) : Refines (lt A a b) (lt A' a b) := by
  unfold lt
  gcongr

/-- Both arithmetics take the same fractions for one. -/
@[gcongr]
theorem refines_isOne (hA : A.Refines A') (a : Fraction) : Refines (isOne A a) (isOne A' a) :=
  refines_eq hA a one

/-! ## Arithmetic -/

/-- The negations in two arithmetics. -/
@[gcongr]
theorem refines_neg (hA : A.Refines A') (a : Fraction) : Refines (neg A a) (neg A' a) := by
  unfold neg
  gcongr

/-- The absolute values in two arithmetics. -/
@[gcongr]
theorem refines_abs (hA : A.Refines A') (a : Fraction) : Refines (abs A a) (abs A' a) := by
  unfold abs
  gcongr

/-- The differences in two arithmetics. -/
@[gcongr]
theorem refines_sub (hA : A.Refines A') (a b : Fraction) : Refines (sub A a b) (sub A' a b) := by
  unfold sub trySub
  gcongr with pair
  dsimp only
  gcongr

/-- The products in two arithmetics. -/
@[gcongr]
theorem refines_mul (hA : A.Refines A') (a b : Fraction) : Refines (mul A a b) (mul A' a b) := by
  unfold mul tryMul
  gcongr

/-- The quotients in two arithmetics, those by zero included. -/
@[gcongr]
theorem refines_div (hA : A.Refines A') (a b : Fraction) : Refines (div A a b) (div A' a b) := by
  unfold div tryDiv
  gcongr

/-- The fractional parts in two arithmetics. -/
@[gcongr]
theorem refines_fract (hA : A.Refines A') (a : Fraction) : Refines (fract A a) (fract A' a) :=
  refines_sub hA a a.floor

end Fraction
end ExactSimplex
