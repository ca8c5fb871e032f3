import ExactSimplex.Proofs.Fraction.Exact
import ExactSimplex.Proofs.Fraction.Operations
import Mathlib.Data.Rat.Floor

/-!
# Fractional parts without wrapping

The fractional part is the difference of a fraction and its floor, and the product of the floor and the
denominator may lie beyond the word.  The difference of the numerators does not: it is the remainder of a
division by a denominator that the word holds.  So it comes out right, whatever wrapped on the way.

Main results:

- Theorem {lit}`Fraction.fract_eq_remainder`: the fractional part reduces the remainder of the stored pair.
- Theorem {lit}`Fraction.fract_of_pos`: over a positive denominator the remainder is reduced already.
- Theorem {lit}`Fraction.toRat_cutEntry`: a cut entry is the exact negated fractional part.
- Theorem {lit}`Fraction.safe_cutEntry`: what the operations yield is the cut entry.
-/

namespace ExactSimplex
namespace Fraction

open Calc

variable {A : Arithmetic} {a : Fraction}

/-- The negated fractional part: the remainder of the stored pair over its denominator. -/
def cutEntry (a : Fraction) : Fraction := ⟨-(a.num % a.den), a.den⟩

/-- A coprime pair with a numerator reduced modulo its positive denominator is reduced already. -/
theorem ofRatio_remainder (hA : A.holds 1 = true) (ha : Proper A a) (hpos : 0 < a.den) :
    ofRatio A (a.num % a.den) a.den = .ok ⟨a.num % a.den, a.den⟩ := by
  have hsign : moveSign A (a.num % a.den) a.den = .ok (a.num % a.den, a.den) := by
    simp [moveSign, not_lt.mpr hpos.le, pure, Except.pure]
  have hgcd : Int.gcd (a.num % a.den) a.den = 1 := by
    rw [Int.gcd_emod, ha.coprime]
  rw [ofRatio_of_ne A hpos.ne', reduce]
  simp only [hsign, bind, Except.bind]
  split
  · next hzero =>
      -- A remainder of zero is coprime to the denominator only if this is one.
      rw [hzero, Int.gcd_zero_left] at hgcd
      have hone : a.den = 1 := by omega
      rw [hzero, hone]
      rfl
  · have hdivisor : A.gcd (a.num % a.den) a.den = .ok 1 := by
      rw [Arithmetic.gcd, hgcd]
      exact if_pos hA
    simp [hdivisor, pure, Except.pure]

/-- The remainder of a division that rounds down lies between zero and the divisor. -/
theorem fmod_between (n : ℤ) {d : ℤ} (hne : d ≠ 0) :
    (0 ≤ n.fmod d ∧ n.fmod d ≤ d) ∨ (d ≤ n.fmod d ∧ n.fmod d ≤ 0) := by
  rcases lt_or_gt_of_ne hne with hneg | hpos
  · have hflip := Int.neg_fmod_neg n d
    rw [Int.fmod_eq_emod_of_nonneg _ (by omega)] at hflip
    have hnonneg := Int.emod_nonneg (-n) (show -d ≠ 0 by omega)
    have hlt := Int.emod_lt_of_pos (-n) (show 0 < -d by omega)
    omega
  · rw [Int.fmod_eq_emod_of_nonneg _ hpos.le]
    exact Or.inl ⟨Int.emod_nonneg n hpos.ne', (Int.emod_lt_of_pos n hpos).le⟩

/-- The difference of the numerators is the remainder, although the product of the floor and the denominator
may wrap around; only this product may be refused. -/
theorem fract_eq_remainder (hA : A.holds 1 = true) (ha : Proper A a) :
    fract A a = (A.mul a.floor.num a.den >>= fun _ => ofRatio A (a.num.fmod a.den) a.den) := by
  have hleft : A.mul a.num a.floor.den = .ok a.num := A.mul_one_right hA ha.num_held
  have hden : A.mul a.den a.floor.den = .ok a.den := A.mul_one_right hA ha.den_held
  rw [fract_eq, sub_eq]
  cases hproduct : A.mul a.floor.num a.den with
  | error fault => simp [cross, hleft, hproduct, bind, Except.bind]
  | ok product =>
      have hstored := (A.safe_store hA (a.floor.num * a.den)).of_eq_ok hproduct
      have hremainder : A.holds (a.num.fmod a.den) = true :=
        A.holds_of_between hA ha.den_held (fmod_between a.num ha.den_ne_zero)
      have hfloor : a.num - a.floor.num * a.den = a.num.fmod a.den := by
        rw [Int.fmod_def, mul_comm]
        rfl
      have hcongr : a.num - product ≡ a.num.fmod a.den [ZMOD A.modulus] := by
        rw [← hfloor]
        exact (Int.ModEq.refl _).sub hstored.2
      have hnum : A.sub a.num product = .ok (a.num.fmod a.den) := by
        rw [Arithmetic.sub, A.store_congr hcongr, A.store_of_holds hA hremainder]
      simp only [cross, hleft, hproduct, hden, hnum, bind, Except.bind, pure, Except.pure]

/-- The fractional part of a pair with positive denominator is the remainder over the denominator; only the
product of the floor and the denominator may be refused. -/
theorem fract_of_pos (hA : A.holds 1 = true) (ha : Proper A a) (hpos : 0 < a.den) :
    fract A a = (fun _ => ⟨a.num % a.den, a.den⟩) <$> A.mul a.floor.num a.den := by
  rw [fract_eq_remainder hA ha, Int.fmod_eq_emod_of_nonneg _ hpos.le, ofRatio_remainder hA ha hpos]
  cases A.mul a.floor.num a.den <;> rfl

/-- A cut entry is the exact negated fractional part. -/
theorem toRat_cutEntry (hpos : 0 < a.den) : (cutEntry a).toRat = -Int.fract a.toRat := by
  rcases Int.eq_ofNat_of_zero_le hpos.le with ⟨den, hden⟩
  have hfract : Int.fract ((a.num : ℚ) / (den : ℚ)) = ((a.num % (den : ℤ) : ℤ) : ℚ) / (den : ℚ) :=
    Int.fract_div_intCast_eq_div_intCast_mod
  simp only [toRat, cutEntry, hden, Int.cast_natCast, Int.cast_neg]
  rw [hfract, neg_div]

/-- The cut entry of a number that is not an integer lies strictly between minus one and zero. -/
theorem cutEntry_between (ha : Proper A a) (hpos : 0 < a.den) (hfraction : a.isInteger = false) :
    -1 < a.cutEntry.toRat ∧ a.cutEntry.toRat < 0 := by
  have hremainder : 0 < a.num % a.den := by
    refine lt_of_le_of_ne (Int.emod_nonneg _ hpos.ne') fun hzero => ?_
    -- A denominator that divides the numerator is one.
    have hgcd : Int.gcd (a.num % a.den) a.den = 1 := (Int.gcd_emod _ _).trans ha.coprime
    rw [← hzero, Int.gcd_zero_left] at hgcd
    have hone : a.den ≠ 1 := by simpa [isInteger] using hfraction
    omega
  have hlt : a.num % a.den < a.den := Int.emod_lt_of_pos _ hpos
  have hden : (0 : ℚ) < a.den := by exact_mod_cast hpos
  simp only [toRat, Fraction.cutEntry]
  constructor
  · rw [lt_div_iff₀ hden]
    have hbound : -a.den < -(a.num % a.den) := by omega
    have hcast : ((-a.den : ℤ) : ℚ) < ((-(a.num % a.den) : ℤ) : ℚ) := by exact_mod_cast hbound
    rw [Int.cast_neg] at hcast
    linarith
  · exact div_neg_of_neg_of_pos (by exact_mod_cast neg_neg_of_pos hremainder) hden

/-- An entry of a cut row is proper. -/
theorem Proper.cutEntry (hA : A.holds 1 = true) (ha : Proper A a) (hpos : 0 < a.den) :
    Proper A a.cutEntry := by
  have hnonneg := Int.emod_nonneg a.num hpos.ne'
  have hlt := Int.emod_lt_of_pos a.num hpos
  have hremainder : A.holds (a.num % a.den) = true :=
    A.holds_of_between hA ha.den_held (Or.inl ⟨hnonneg, hlt.le⟩)
  refine ⟨A.holds_neg_of_nonneg hA hremainder hnonneg, ha.den_held, ha.den_ne_zero, ha.den_ne_neg_one, ?_⟩
  show Int.gcd (-(a.num % a.den)) a.den = 1
  rw [Int.neg_gcd, Int.gcd_emod, ha.coprime]

/-- The fractional part is negated as it is; only the product within it may be refused. -/
theorem fract_neg_of_pos (hA : A.holds 1 = true) (ha : Proper A a) (hpos : 0 < a.den) :
    (fract A a >>= neg A) = (fun _ => a.cutEntry) <$> A.mul a.floor.num a.den := by
  have hneg : A.neg (a.num % a.den) = .ok (-(a.num % a.den)) :=
    A.store_of_holds hA (ha.cutEntry hA hpos).num_held
  rw [fract_of_pos hA ha hpos]
  cases A.mul a.floor.num a.den with
  | error fault => rfl
  | ok product =>
      show neg A ⟨a.num % a.den, a.den⟩ = .ok a.cutEntry
      simp only [neg, hneg, bind, Except.bind, pure, Except.pure, Fraction.cutEntry]

/-- An entry of a cut row is calculated as it is defined, and nothing is refused. -/
theorem safe_cutEntry (hA : A.holds 1 = true) (ha : Proper A a) (hpos : 0 < a.den) :
    Safe A (fract A a >>= neg A) (· = a.cutEntry) := by
  rw [fract_neg_of_pos hA ha hpos]
  exact (A.safe_store hA _).map fun _ _ => rfl

/-- Only checked arithmetic can refuse a cut entry. -/
theorem cutEntry_of_unchecked (hA : A.holds 1 = true) (hunchecked : ∀ bits, A ≠ .checked bits)
    (ha : Proper A a) (hpos : 0 < a.den) : (fract A a >>= neg A) = .ok a.cutEntry := by
  rw [fract_neg_of_pos hA ha hpos]
  cases A with
  | exact => rfl
  | wrapping bits => rfl
  | checked bits => exact absurd rfl (hunchecked bits)

end Fraction
end ExactSimplex
