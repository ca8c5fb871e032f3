import ExactSimplex.Fraction.Basic
import Mathlib.Algebra.Order.Field.Rat
import Mathlib.Data.Rat.Floor
import Mathlib.Data.Rat.Lemmas
import Mathlib.Tactic.FieldSimp
import Mathlib.Tactic.Linarith
import Mathlib.Tactic.Ring

/-!
# Fractions in exact arithmetic

A fraction stands for the quotient of its pair, a rational number.  In exact arithmetic every
operation stores the reduced pair of the rational result, so a calculation on reduced fractions is
the same calculation on rational numbers.

Main results:

- Theorems {lit}`Fraction.toRat_ofRat` and {lit}`Fraction.ofRat_toRat`: reduced fractions and rational
  numbers correspond to each other.
- Theorem {lit}`Fraction.ofRatio_exact`: a pair is stored as the reduced form of its quotient, where
  a quotient by zero is zero.
- Theorems {lit}`Fraction.sub_ofRat`, {lit}`Fraction.mul_ofRat` and {lit}`Fraction.div_ofRat`: the
  operations are those of the rational numbers.
-/

namespace ExactSimplex
namespace Fraction

/-! ## Fractions as rational numbers -/

/-- The rational number that a fraction stands for. -/
def toRat (a : Fraction) : ℚ := a.num / a.den

/-- The reduced pair of a rational number. -/
def ofRat (q : ℚ) : Fraction := ⟨q.num, q.den⟩

/-- The denominator is positive and has no factor in common with the numerator. -/
structure Reduced (a : Fraction) : Prop where
  den_pos : 0 < a.den
  coprime : Nat.Coprime a.num.natAbs a.den.natAbs

instance (a : Fraction) : Decidable a.Reduced :=
  decidable_of_iff (0 < a.den ∧ Nat.Coprime a.num.natAbs a.den.natAbs)
    ⟨fun h => ⟨h.1, h.2⟩, fun h => ⟨h.1, h.2⟩⟩

/-- The fraction of a rational number is reduced. -/
theorem reduced_ofRat (q : ℚ) : (ofRat q).Reduced where
  den_pos := by
    simpa [ofRat] using q.den_pos
  coprime := by
    simpa [ofRat] using q.reduced

/-- A rational number is the value of its fraction. -/
@[simp]
theorem toRat_ofRat (q : ℚ) : (ofRat q).toRat = q := by
  simp [toRat, ofRat, Rat.num_div_den]

/-- A reduced fraction is that of its value. -/
theorem ofRat_toRat {a : Fraction} (ha : a.Reduced) : ofRat a.toRat = a := by
  have hnum := Rat.num_div_eq_of_coprime ha.den_pos ha.coprime
  have hden := Rat.den_div_eq_of_coprime ha.den_pos ha.coprime
  cases a
  simp [ofRat, toRat, hnum, hden]

/-- Different rational numbers have different fractions. -/
theorem ofRat_inj {p q : ℚ} : ofRat p = ofRat q ↔ p = q :=
  (Function.LeftInverse.injective toRat_ofRat).eq_iff

theorem zero_eq_ofRat : zero = ofRat 0 :=
  rfl

theorem one_eq_ofRat : one = ofRat 1 :=
  rfl

@[simp]
theorem toRat_zero : zero.toRat = 0 := by
  rw [zero_eq_ofRat, toRat_ofRat]

theorem reduced_zero : zero.Reduced :=
  reduced_ofRat 0

/-- An integer fraction is that of its value. -/
theorem ofInt_eq_ofRat (n : Int) : ofInt n = ofRat n := by
  simp [ofInt, ofRat]

/-! ## Tests -/

/-- A fraction is zero exactly if its value is. -/
@[simp]
theorem isZero_ofRat (q : ℚ) : (ofRat q).isZero = decide (q = 0) := by
  simp [isZero, ofRat, Rat.num_eq_zero, beq_eq_decide]

/-- A fraction is negative exactly if its value is. -/
@[simp]
theorem isNegative_ofRat (q : ℚ) : (ofRat q).isNegative = decide (q < 0) := by
  simp [isNegative, ofRat, Rat.num_neg]

/-- A fraction is positive exactly if its value is. -/
@[simp]
theorem isPositive_ofRat (q : ℚ) : (ofRat q).isPositive = decide (0 < q) := by
  simp [isPositive, ofRat, Rat.num_pos]

/-- The stored denominator is one exactly when the number is an integer. -/
theorem isInteger_ofRat_iff (q : ℚ) : (ofRat q).isInteger = true ↔ ∃ z : ℤ, q = z := by
  have hden : (ofRat q).isInteger = true ↔ q.den = 1 := by
    simp [isInteger, ofRat]
  rw [hden]
  constructor
  · intro h
    exact ⟨q.num, (Rat.den_eq_one_iff q).mp h |>.symm⟩
  · rintro ⟨z, rfl⟩
    exact Rat.den_intCast z

/-! ## Reduction -/

/-- In exact arithmetic the denominator becomes positive. -/
theorem moveSign_exact (num den : Int) :
    moveSign .exact num den = .ok (if den < 0 then (-num, -den) else (num, den)) := by
  unfold moveSign
  split <;> rfl

/-- Dividing out the greatest common divisor of a pair with positive denominator leaves the reduced
pair of its quotient. -/
theorem div_gcd_eq_ofRat {num den : Int} (hden : 0 < den) :
    (⟨num / Int.gcd num den, den / Int.gcd num den⟩ : Fraction) = ofRat (num / den) := by
  have hpos : 0 < Int.gcd num den := Int.gcd_pos_of_ne_zero_right num hden.ne'
  have hgcd : (0 : Int) < Int.gcd num den := by exact_mod_cast hpos
  have hnum : num / Int.gcd num den * Int.gcd num den = num :=
    Int.ediv_mul_cancel (Int.gcd_dvd_left num den)
  have hquot : den / Int.gcd num den * Int.gcd num den = den :=
    Int.ediv_mul_cancel (Int.gcd_dvd_right num den)
  have hcoprime := Int.gcd_ediv_gcd_ediv_gcd hpos
  set g : Int := ((Int.gcd num den : Nat) : Int)
  set a := num / g
  set b := den / g
  have hb : 0 < b := by
    by_contra hb
    nlinarith
  have hreduced : Reduced ⟨a, b⟩ := ⟨hb, hcoprime⟩
  have hvalue : (num / den : ℚ) = Fraction.toRat ⟨a, b⟩ := by
    have hgq : (g : ℚ) ≠ 0 := by exact_mod_cast hgcd.ne'
    rw [← hnum, ← hquot]
    push_cast
    exact mul_div_mul_right _ _ hgq
  rw [hvalue, ofRat_toRat hreduced]

/-- In exact arithmetic a pair reduces to the fraction of its quotient. -/
theorem reduce_exact {num den : Int} (hden : den ≠ 0) :
    reduce .exact num den = .ok (ofRat (num / den)) := by
  have hpos : ∀ num den : Int, 0 < den →
      (if num = 0 then pure zero
        else do
          let divisor ← Arithmetic.exact.gcd num den
          pure ⟨num / divisor, den / divisor⟩ : Calc Fraction) = .ok (ofRat (num / den)) := by
    intro num den hden
    split
    · next h =>
        simp [h, zero_eq_ofRat, pure, Except.pure]
    · rw [← div_gcd_eq_ofRat hden]
      rfl
  unfold reduce
  rw [moveSign_exact]
  rcases lt_or_gt_of_ne hden with hneg | hden
  · rw [if_pos hneg]
    have := hpos (-num) (-den) (by omega)
    rw [Int.cast_neg, Int.cast_neg, neg_div_neg_eq] at this
    exact this
  · rw [if_neg (not_lt.mpr hden.le)]
    exact hpos num den hden

/-- A pair is stored as the reduced form of its quotient; a quotient by zero is zero. -/
theorem ofRatio_exact (num den : Int) : ofRatio .exact num den = .ok (ofRat (num / den)) := by
  by_cases hden : den = 0
  · subst hden
    rw [ofRatio_zero, zero_eq_ofRat]
    simp
  · rw [ofRatio_of_ne _ hden, reduce_exact hden]

/-! ## Operations -/

/-- The cross products of two fractions, which bring them to one denominator. -/
theorem cross_ofRat (p q : ℚ) :
    cross .exact (ofRat p) (ofRat q) = .ok (p.num * q.den, q.num * p.den) :=
  rfl

/-- Fractions are in the order of their values. -/
theorem lt_ofRat (p q : ℚ) : lt .exact (ofRat p) (ofRat q) = .ok (decide (p < q)) := by
  simp only [lt, cross_ofRat, bind, Except.bind, pure, Except.pure, Rat.lt_iff]

/-- Fractions are equal exactly if their values are. -/
theorem eq_ofRat (p q : ℚ) : eq .exact (ofRat p) (ofRat q) = .ok (decide (p = q)) := by
  simp only [eq, cross_ofRat, bind, Except.bind, pure, Except.pure, beq_eq_decide,
    Rat.eq_iff_mul_eq_mul]

/-- A fraction is one exactly if its value is. -/
theorem isOne_ofRat (q : ℚ) : isOne .exact (ofRat q) = .ok (decide (q = 1)) :=
  eq_ofRat q 1

/-- The exact negation of a fraction. -/
theorem neg_ofRat (q : ℚ) : neg .exact (ofRat q) = .ok (ofRat (-q)) :=
  rfl

/-- The exact absolute value of a fraction. -/
theorem abs_ofRat (q : ℚ) : abs .exact (ofRat q) = .ok (ofRat |q|) := by
  unfold abs
  rw [isNegative_ofRat]
  by_cases hq : q < 0
  · simp only [hq, decide_true, if_true, neg_ofRat, abs_of_neg hq]
  · simp only [hq, decide_false, Bool.false_eq_true, if_false, abs_of_nonneg (not_lt.mp hq)]
    rfl

/-- The exact sum of two fractions. -/
theorem add_ofRat (p q : ℚ) : add .exact (ofRat p) (ofRat q) = .ok (ofRat (p + q)) := by
  have hsum : add .exact (ofRat p) (ofRat q) =
      ofRatio .exact (p.num * q.den + q.num * p.den) (p.den * q.den) :=
    rfl
  rw [hsum, ofRatio_exact]
  congr 2
  push_cast
  rw [← Rat.mul_den_eq_num p, ← Rat.mul_den_eq_num q]
  field_simp

/-- The exact difference of two fractions. -/
theorem sub_ofRat (p q : ℚ) : sub .exact (ofRat p) (ofRat q) = .ok (ofRat (p - q)) := by
  have hdifference : sub .exact (ofRat p) (ofRat q) =
      ofRatio .exact (p.num * q.den - q.num * p.den) (p.den * q.den) :=
    rfl
  rw [hdifference, ofRatio_exact]
  congr 2
  push_cast
  rw [← Rat.mul_den_eq_num p, ← Rat.mul_den_eq_num q]
  field_simp

/-- The exact product of two fractions. -/
theorem mul_ofRat (p q : ℚ) : mul .exact (ofRat p) (ofRat q) = .ok (ofRat (p * q)) := by
  have hproduct : mul .exact (ofRat p) (ofRat q) =
      ofRatio .exact (p.num * q.num) (p.den * q.den) :=
    rfl
  rw [hproduct, ofRatio_exact]
  congr 2
  push_cast
  rw [← Rat.mul_den_eq_num p, ← Rat.mul_den_eq_num q]
  field_simp

/-- The quotient by zero is zero, as for rational numbers. -/
theorem div_ofRat (p q : ℚ) : div .exact (ofRat p) (ofRat q) = .ok (ofRat (p / q)) := by
  by_cases hq : q = 0
  · subst hq
    rw [div_zero]
    rfl
  · have hquotient : div .exact (ofRat p) (ofRat q) =
        ofRatio .exact (p.num * q.den) (p.den * q.num) := by
      unfold div tryDiv
      rw [isZero_ofRat, decide_eq_false hq]
      rfl
    have hnum : (q.num : ℚ) ≠ 0 := by exact_mod_cast Rat.num_ne_zero.mpr hq
    rw [hquotient, ofRatio_exact]
    congr 2
    push_cast
    rw [← Rat.mul_den_eq_num p, ← Rat.mul_den_eq_num q]
    field_simp

/-- The floor of a fraction is that of its value. -/
theorem floor_ofRat (q : ℚ) : (ofRat q).floor = ofRat ⌊q⌋ := by
  rw [← ofInt_eq_ofRat]
  unfold floor
  congr 1
  rw [Rat.floor_def', Int.fdiv_eq_ediv_of_nonneg _ (reduced_ofRat q).den_pos.le]
  rfl

/-- The exact fractional part of a fraction. -/
theorem fract_ofRat (q : ℚ) : fract .exact (ofRat q) = .ok (ofRat (Int.fract q)) := by
  have hfract : fract .exact (ofRat q) = sub .exact (ofRat q) (ofRat q).floor :=
    rfl
  rw [hfract, floor_ofRat, sub_ofRat]
  rfl

end Fraction
end ExactSimplex
