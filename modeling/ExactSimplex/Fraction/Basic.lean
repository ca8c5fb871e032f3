import ExactSimplex.Arithmetic

/-!
# Fractions

A {lit}`Fraction` is a stored pair of integers.  Every operation takes the arithmetic that it
computes in, forms one unreduced pair from its operands, and reduces the pair: the sign moves to the
numerator, the greatest common divisor is divided out, and zero becomes {lit}`0/1`.  In wrapping
arithmetic the least word has no negation, so a denominator equal to it, or to a power of two divided
out of it, stays negative.

A pair with a zero denominator and a division by a zero fraction are arithmetic errors.  The
{lit}`try…` forms return the error; the plain forms put zero in its place.

Main results:

- Theorem {lit}`Fraction.reduce_zero`: a zero numerator reduces to {lit}`0/1`.
- Theorem {lit}`Fraction.tryOfRatio_zero`: a zero denominator is an error and nothing else.
- Theorem {lit}`Fraction.ofRatio_zero`: in its place stands zero.
-/

namespace ExactSimplex

/-- A stored numerator and denominator. -/
structure Fraction where
  num : Int
  den : Int
  deriving Repr, DecidableEq

/-- What makes a fraction or a quotient meaningless. -/
inductive ArithmeticError where
  | zeroDenominator (numerator : Int)
  | divisionByZero (dividend : Fraction)
  deriving Repr, DecidableEq

namespace Fraction

/-- The fraction of an integer. -/
def ofInt (n : Int) : Fraction := ⟨n, 1⟩

/-- Zero is stored as `0/1`. -/
def zero : Fraction := ofInt 0

/-- One is stored as `1/1`. -/
def one : Fraction := ofInt 1

instance : Inhabited Fraction := ⟨zero⟩

/-! ## Tests on the stored pair -/

/-- Whether the stored denominator is one. -/
def isInteger (a : Fraction) : Bool := a.den == 1

/-- Whether the stored numerator is negative. -/
def isNegative (a : Fraction) : Bool := decide (a.num < 0)

/-- Whether the stored numerator is positive. -/
def isPositive (a : Fraction) : Bool := decide (0 < a.num)

/-- Whether the stored numerator is zero. -/
def isZero (a : Fraction) : Bool := a.num == 0

/-- Greatest integer not above the quotient of the stored pair. -/
def floor (a : Fraction) : Fraction := ofInt (a.num.fdiv a.den)

/-! ## Reduced pairs -/

section Operations

variable (A : Arithmetic)

/-- The pair with its sign in the numerator, as far as the arithmetic can negate it. -/
def moveSign (num den : Int) : Calc (Int × Int) := do
  if den < 0 then
    let num ← A.neg num
    let den ← A.neg den
    pure (num, den)
  else pure (num, den)

/-- The reduced form of a pair with a nonzero denominator. -/
def reduce (num den : Int) : Calc Fraction := do
  let (num, den) ← moveSign A num den
  if num = 0 then pure zero
  else
    let divisor ← A.gcd num den
    pure ⟨num / divisor, den / divisor⟩

/-- The fraction of a pair, or the error that its denominator is zero. -/
def tryOfRatio (num den : Int) : Calc (Except ArithmeticError Fraction) :=
  if den = 0 then pure (.error (.zeroDenominator num))
  else Except.ok <$> reduce A num den

end Operations

/-- Zero stands in for a meaningless fraction. -/
def orZero : Except ArithmeticError Fraction → Fraction
  | .ok a => a
  | .error _ => zero

/-- The errors that were covered up by a zero. -/
def coveredErrors : Except ArithmeticError Fraction → List ArithmeticError
  | .ok _ => []
  | .error e => [e]

section Operations

variable (A : Arithmetic)

/-- The fraction of a pair, zero if the denominator is zero. -/
def ofRatio (num den : Int) : Calc Fraction := orZero <$> tryOfRatio A num den

/-! ## Comparison -/

/-- The two numerators over the common denominator. -/
def cross (a b : Fraction) : Calc (Int × Int) := do
  let left ← A.mul a.num b.den
  let right ← A.mul b.num a.den
  pure (left, right)

/-- Equality of values, by cross multiplication. -/
def eq (a b : Fraction) : Calc Bool := do
  let (left, right) ← cross A a b
  pure (left == right)

/-- Strict order of values, by cross multiplication. -/
def lt (a b : Fraction) : Calc Bool := do
  let (left, right) ← cross A a b
  pure (decide (left < right))

/-- Three-way comparison of values, by cross multiplication. -/
def cmp (a b : Fraction) : Calc Ordering := do
  let (left, right) ← cross A a b
  pure (compare left right)

/-- Whether the value equals one. -/
def isOne (a : Fraction) : Calc Bool := eq A a one

/-! ## Arithmetic -/

/-- The negation; the denominator stays as it is. -/
def neg (a : Fraction) : Calc Fraction := do
  let num ← A.neg a.num
  pure ⟨num, a.den⟩

/-- The value without its sign. -/
def abs (a : Fraction) : Calc Fraction :=
  if a.isNegative then neg A a else pure a

/-- The sum over the product of the denominators. -/
def tryAdd (a b : Fraction) : Calc (Except ArithmeticError Fraction) := do
  let (left, right) ← cross A a b
  let num ← A.add left right
  let den ← A.mul a.den b.den
  tryOfRatio A num den

/-- The difference over the product of the denominators. -/
def trySub (a b : Fraction) : Calc (Except ArithmeticError Fraction) := do
  let (left, right) ← cross A a b
  let num ← A.sub left right
  let den ← A.mul a.den b.den
  tryOfRatio A num den

/-- The product of the numerators over the product of the denominators. -/
def tryMul (a b : Fraction) : Calc (Except ArithmeticError Fraction) := do
  let num ← A.mul a.num b.num
  let den ← A.mul a.den b.den
  tryOfRatio A num den

/-- The quotient: the dividend times the inverted divisor. -/
def tryDiv (a b : Fraction) : Calc (Except ArithmeticError Fraction) :=
  if b.isZero then pure (.error (.divisionByZero a))
  else do
    let num ← A.mul a.num b.den
    let den ← A.mul a.den b.num
    tryOfRatio A num den

/-- The difference of a value and its floor. -/
def tryFract (a : Fraction) : Calc (Except ArithmeticError Fraction) := trySub A a a.floor

/-- The sum, zero in place of an error. -/
def add (a b : Fraction) : Calc Fraction := orZero <$> tryAdd A a b

/-- The difference, zero in place of an error. -/
def sub (a b : Fraction) : Calc Fraction := orZero <$> trySub A a b

/-- The product, zero in place of an error. -/
def mul (a b : Fraction) : Calc Fraction := orZero <$> tryMul A a b

/-- The quotient, zero in place of an error. -/
def div (a b : Fraction) : Calc Fraction := orZero <$> tryDiv A a b

/-- The fractional part, zero in place of an error. -/
def fract (a : Fraction) : Calc Fraction := orZero <$> tryFract A a

/-- The quotient, where only a zero divisor is an error: a denominator that comes out as zero is
still covered up. -/
def checkedDiv (a b : Fraction) : Calc (Except ArithmeticError Fraction) := do
  match ← tryDiv A a b with
  | .error (.zeroDenominator _) => pure (.ok zero)
  | quotient => pure quotient

/-! ## First facts -/

/-- The reduced form of a pair with numerator zero and positive denominator is `0/1`. -/
theorem reduce_zero {den : Int} (h : 0 < den) : reduce A 0 den = .ok zero := by
  have hsign : moveSign A 0 den = .ok (0, den) := by
    simp [moveSign, Int.not_lt.mpr (Int.le_of_lt h), pure, Except.pure]
  simp [reduce, hsign, bind, Except.bind, pure, Except.pure]

/-- A zero denominator is an error and nothing else. -/
theorem tryOfRatio_zero (num : Int) :
    tryOfRatio A num 0 = .ok (.error (.zeroDenominator num)) :=
  rfl

/-- A pair with another denominator is reduced. -/
theorem tryOfRatio_of_ne {num den : Int} (h : den ≠ 0) :
    tryOfRatio A num den = Except.ok <$> reduce A num den := by
  simp [tryOfRatio, h]

/-- Zero stands in the place of a pair with a zero denominator. -/
theorem ofRatio_zero (num : Int) : ofRatio A num 0 = .ok zero :=
  rfl

/-- Without a zero denominator the plain form reduces, too. -/
theorem ofRatio_of_ne {num den : Int} (h : den ≠ 0) : ofRatio A num den = reduce A num den := by
  unfold ofRatio
  rw [tryOfRatio_of_ne A h]
  cases reduce A num den <;> rfl

end Operations

@[simp]
theorem isZero_one : one.isZero = false :=
  rfl

end Fraction
end ExactSimplex
