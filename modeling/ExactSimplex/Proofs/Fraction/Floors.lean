import ExactSimplex.Proofs.Fraction.Fractional
import ExactSimplex.Proofs.Fraction.Reread
import Mathlib.Order.Bounds.Basic

/-!
# Floors and fractional parts in words

A denominator may be negative, where a power of two was divided out of the least word.  The floor of such a
pair is still that of its quotient.  The fractional part reduces the remainder of the pair, which is coprime to
the denominator, so the reduction only moves the sign, and it can do so unless the denominator is the least word
itself.

Main results:

- Theorem {lit}`Fraction.floor_num`: the floor of a stored pair is the floor of its quotient.
- Theorem {lit}`Fraction.toRat_fractionalPart`: the fractional part of a pair is that of its quotient.
- Theorem {lit}`Fraction.fract_in_words`: the fractional part comes out right, whatever wrapped on the way.
- Theorem {lit}`Fraction.floor_fract_exact`: floor and fractional part of everything that is built in words.
-/

namespace ExactSimplex
namespace Fraction

open Calc

variable {a : Fraction} {bits : ℕ}

/-! ## Pairs with a negative denominator -/

/-- The fractional part of a pair: the remainder over the magnitude of the denominator. -/
def fractionalPart (a : Fraction) : Fraction := ⟨(a.den.sign * a.num) % |a.den|, |a.den|⟩

/-- The fractional part above a positive denominator. -/
theorem fractionalPart_of_pos (hpos : 0 < a.den) : a.fractionalPart = ⟨a.num % a.den, a.den⟩ := by
  rw [fractionalPart, Int.sign_eq_one_of_pos hpos, abs_of_pos hpos, one_mul]

/-- The fractional part above a negative denominator, with both signs turned. -/
theorem fractionalPart_of_neg (hneg : a.den < 0) : a.fractionalPart = ⟨-a.num % -a.den, -a.den⟩ := by
  rw [fractionalPart, Int.sign_eq_neg_one_of_neg hneg, abs_of_neg hneg, neg_one_mul]

/-- A pair and the pair with both signs changed have the same quotient. -/
theorem toRat_neg_neg (a : Fraction) : Fraction.toRat ⟨-a.num, -a.den⟩ = a.toRat := by
  simp only [toRat, Int.cast_neg, neg_div_neg_eq]

/-- The floor of a stored pair is the floor of its quotient. -/
theorem floor_num (hne : a.den ≠ 0) : a.floor.num = ⌊a.toRat⌋ := by
  have hpositive : ∀ num den : ℤ, 0 < den → num.fdiv den = ⌊Fraction.toRat ⟨num, den⟩⌋ := by
    intro num den hpos
    lift den to ℕ using hpos.le
    rw [Int.fdiv_eq_ediv_of_nonneg _ hpos.le]
    exact (Rat.floor_intCast_div_natCast num den).symm
  rcases lt_or_gt_of_ne hne with hneg | hpos
  · show a.num.fdiv a.den = ⌊a.toRat⌋
    rw [← toRat_neg_neg a, ← Int.neg_fdiv_neg]
    exact hpositive _ _ (by omega)
  · exact hpositive a.num a.den hpos

/-- The value of the fractional part is that of the value. -/
theorem toRat_fractionalPart (hne : a.den ≠ 0) : a.fractionalPart.toRat = Int.fract a.toRat := by
  have hpositive : ∀ num den : ℤ, 0 < den →
      Fraction.toRat ⟨num % den, den⟩ = Int.fract (Fraction.toRat ⟨num, den⟩) := by
    intro num den hpos
    lift den to ℕ using hpos.le
    exact Int.fract_div_intCast_eq_div_intCast_mod.symm
  rcases lt_or_gt_of_ne hne with hneg | hpos
  · rw [fractionalPart_of_neg hneg, ← toRat_neg_neg a]
    exact hpositive _ _ (by omega)
  · rw [fractionalPart_of_pos hpos]
    exact hpositive a.num a.den hpos

/-- The fractional part of a coprime pair is reduced. -/
theorem reduced_fractionalPart (hne : a.den ≠ 0) (hcoprime : Int.gcd a.num a.den = 1) :
    a.fractionalPart.Reduced := by
  rcases lt_or_gt_of_ne hne with hneg | hpos
  · rw [fractionalPart_of_neg hneg]
    refine ⟨show 0 < -a.den by omega, ?_⟩
    show Int.gcd (-a.num % -a.den) (-a.den) = 1
    rw [Int.gcd_emod, Int.neg_gcd, Int.gcd_neg, hcoprime]
  · rw [fractionalPart_of_pos hpos]
    refine ⟨hpos, ?_⟩
    show Int.gcd (a.num % a.den) a.den = 1
    rw [Int.gcd_emod, hcoprime]

/-! ## Fractional parts in words -/

/-- A pair whose sign can move is reduced as the pair with both signs changed. -/
theorem reduce_of_neg {A : Arithmetic} {num den : ℤ} (hneg : den < 0) (hnum : A.holds (-num) = true)
    (hden : A.holds (-den) = true) (hA : A.holds 1 = true) : reduce A num den = reduce A (-num) (-den) := by
  have hmove : moveSign A num den = .ok (-num, -den) := by
    have hnumStored : A.neg num = .ok (-num) := A.store_of_holds hA hnum
    have hdenStored : A.neg den = .ok (-den) := A.store_of_holds hA hden
    simp only [moveSign, if_pos hneg, hnumStored, hdenStored, bind, Except.bind, pure, Except.pure]
  have hkeep : moveSign A (-num) (-den) = .ok (-num, -den) := if_neg (by omega)
  unfold reduce
  rw [hmove, hkeep]

/-- The fractional part comes out right unless the denominator is the least word. -/
theorem fract_in_words (hA : (Arithmetic.wrapping bits).holds 1 = true) (ha : Proper (.wrapping bits) a)
    (hden : a.den ≠ -Arithmetic.halfRange bits) :
    fract (.wrapping bits) a = .ok a.fractionalPart := by
  have hreduced := reduced_fractionalPart ha.den_ne_zero ha.coprime
  have hreduce := reduce_of_coprime hA hreduced.den_pos hreduced.coprime
  have hremainder : fract (.wrapping bits) a = ofRatio (.wrapping bits) (a.num.fmod a.den) a.den :=
    fract_eq_remainder hA ha
  rw [hremainder, ofRatio_of_ne _ ha.den_ne_zero]
  rcases lt_or_gt_of_ne ha.den_ne_zero with hneg | hpos
  · have hnegDen : (Arithmetic.wrapping bits).holds (-a.den) = true := by
      have hrange := Arithmetic.holds_wrapping_iff.mp ha.den_held
      rw [Arithmetic.holds_wrapping_iff]
      omega
    have hflip : -a.num.fmod a.den = -a.num % -a.den := by
      rw [← Int.neg_fmod_neg, Int.fmod_eq_emod_of_nonneg _ (by omega)]
    have hnegNum : (Arithmetic.wrapping bits).holds (-a.num.fmod a.den) = true := by
      have hbetween := fmod_between a.num ha.den_ne_zero
      exact Arithmetic.holds_of_between hA hnegDen (by omega)
    rw [reduce_of_neg hneg hnegNum hnegDen hA, hflip]
    rwa [fractionalPart_of_neg hneg] at hreduce ⊢
  · rw [Int.fmod_eq_emod_of_nonneg _ hpos.le]
    rwa [fractionalPart_of_pos hpos] at hreduce ⊢

/-- For whatever is built in words, with the least word as denominator left out: the floor is the greatest
integer that is not above the quotient, and the instructions for it succeed.  The fractional part is their
exact difference, stored reduced over the magnitude of the denominator, and it is at least zero and less than
one. -/
theorem floor_fract_exact (hbits : 2 ≤ bits) (ha : Built (.wrapping bits) a)
    (hden : a.den ≠ -Arithmetic.halfRange bits) :
    (a.floor.den = 1 ∧ IsGreatest {n : ℤ | (n : ℚ) ≤ a.toRat} a.floor.num ∧
      (Arithmetic.wrapping bits).floorQuotient a.num a.den = some a.floor.num) ∧
    ∃ part, fract (.wrapping bits) a = .ok part ∧ part.toRat = a.toRat - a.floor.num ∧
      part.Reduced ∧ part.den = |a.den| ∧ 0 ≤ part.toRat ∧ part.toRat < 1 := by
  have hA := Arithmetic.holds_one_of_two_le hbits
  have hproper := ha.proper hA
  have hfloor : a.floor.num = ⌊a.toRat⌋ := floor_num hproper.den_ne_zero
  have hpart : a.fractionalPart.toRat = Int.fract a.toRat := toRat_fractionalPart hproper.den_ne_zero
  refine ⟨⟨rfl, ?_, ?_⟩, a.fractionalPart, fract_in_words hA hproper hden, ?_, ?_, rfl, ?_, ?_⟩
  · rw [hfloor]
    exact ⟨Int.floor_le a.toRat, fun n hn => Int.le_floor.mpr hn⟩
  · exact Arithmetic.floorQuotient_eq hA hproper.num_held hproper.den_ne_zero hproper.den_ne_neg_one
  · rw [hpart, hfloor]
    rfl
  · exact reduced_fractionalPart hproper.den_ne_zero hproper.coprime
  · rw [hpart]
    exact Int.fract_nonneg a.toRat
  · rw [hpart]
    exact Int.fract_lt_one a.toRat

/-- The least word over three, where the product of floor and denominator wraps around, and five over a
negative power of two. -/
theorem floor_fract_exact_least :
    ((Arithmetic.wrapping 32).mul (-715827883) 3 = .ok 2147483647 ∧
      ∃ part, fract (.wrapping 32) ⟨-2147483648, 3⟩ = .ok part ∧ part.den = 3 ∧ part.toRat = 1 / 3) ∧
    ∃ part, fract (.wrapping 32) ⟨5, -1073741824⟩ = .ok part ∧ part.den = 1073741824 ∧
      part.toRat = 1 - 5 / 1073741824 := by
  have hleast : Built (.wrapping 32) ⟨-2147483648, 3⟩ :=
    @Built.ofRatio (.wrapping 32) (-2147483648) 3 _ (by decide) (by decide) (by decide +kernel)
  have hnegative : Built (.wrapping 32) ⟨5, -1073741824⟩ :=
    @Built.ofRatio (.wrapping 32) (-10) (-2147483648) _ (by decide) (by decide) (by decide +kernel)
  rcases floor_fract_exact (by decide) hleast (by decide) with ⟨-, part, hpart, hvalue, -, hden, -⟩
  rcases floor_fract_exact (by decide) hnegative (by decide) with ⟨-, part', hpart', hvalue', -, hden', -⟩
  refine ⟨⟨by decide +kernel, part, hpart, hden, ?_⟩, part', hpart', hden', ?_⟩
  · rw [hvalue, show Fraction.floor ⟨-2147483648, 3⟩ = ⟨-715827883, 1⟩ by decide]
    norm_num [toRat]
  · rw [hvalue', show Fraction.floor ⟨5, -1073741824⟩ = ⟨-1, 1⟩ by decide]
    norm_num [toRat]

end Fraction
end ExactSimplex
