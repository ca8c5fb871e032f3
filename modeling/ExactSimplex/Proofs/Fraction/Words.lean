import ExactSimplex.Proofs.Fraction.Operations
import Mathlib.Algebra.Group.Int.Even
import Mathlib.Algebra.Order.Ring.Int
import Mathlib.Data.Nat.Prime.Basic

/-!
# Reduction and floors in words

Division instructions are partial: a divisor may be zero, and the quotient of the least word by minus one
does not fit.  Reduction and floors only use them where they are defined, unless both integers of a pair are
the least word.  The reason is the form of the stored fractions.  A denominator that could not be negated is
the least word or a power of two divided out of it, and as the pair is coprime it is never minus one.

Main results:

- Theorem {lit}`Arithmetic.floorQuotient_eq`: the instructions for a floor succeed unless the divisor is
  zero or minus one.
- Theorem {lit}`Fraction.reduceInWords_of_eq_ok`: the instructions for a reduction succeed where the
  reduction does.
- Theorem {lit}`Fraction.inWords_of_reduce`: the form of a reduced pair.
-/

namespace ExactSimplex

open Calc

/-! ## Division instructions -/

namespace Arithmetic

variable {A : Arithmetic} {a b : ℤ}

/-- The quotient rounded towards zero; none for a zero divisor or if it does not fit. -/
def quotient (A : Arithmetic) (a b : ℤ) : Option ℤ :=
  if b = 0 then none else if A.holds (a.tdiv b) then some (a.tdiv b) else none

/-- The quotient rounded down, which is one less than the rounded one where the remainder has the sign
that the divisor does not have. -/
def floorQuotient (A : Arithmetic) (a b : ℤ) : Option ℤ :=
  (A.quotient a b).bind fun q =>
    if (0 < a.tmod b ∧ b < 0) ∨ (a.tmod b < 0 ∧ 0 < b) then
      if A.holds (q - 1) then some (q - 1) else none
    else some q

/-- The greatest common divisor; none if it does not fit. -/
def divisor (A : Arithmetic) (a b : ℤ) : Option ℤ :=
  if A.holds (Int.gcd a b) then some (Int.gcd a b) else none

/-- An integer that is held has its exact quotient by a positive divisor. -/
theorem quotient_of_dvd (hA : A.holds 1 = true) (ha : A.holds a = true) (hb : 0 < b) (hdvd : b ∣ a) :
    A.quotient a b = some (a / b) := by
  have hheld := A.holds_ediv hA ha hb hdvd
  rw [← Int.tdiv_eq_ediv_of_dvd hdvd] at hheld ⊢
  rw [quotient, if_neg hb.ne', if_pos hheld]

/-- Rounding towards zero and rounding down differ for a negative dividend and a positive divisor, unless
the division is exact. -/
theorem tdiv_eq_of_pos (hb : 0 < b) : a.tdiv b = a.fdiv b + if a.tmod b < 0 then 1 else 0 := by
  have hsign := Int.sign_tmod a b
  have hremainder : a.tmod b < 0 ↔ ¬(0 ≤ a ∨ b ∣ a) := by
    rw [← Int.sign_eq_neg_one_iff_neg, hsign]
    split
    · next hdvd => simp [hdvd]
    · next hdvd => simp [hdvd, Int.sign_eq_neg_one_iff_neg]
  rw [Int.tdiv_eq_ediv, Int.fdiv_eq_ediv_of_nonneg a hb.le, Int.sign_eq_one_of_pos hb]
  by_cases h : 0 ≤ a ∨ b ∣ a
  · rw [if_pos h, if_neg (fun hlt => hremainder.mp hlt h)]
  · rw [if_neg h, if_pos (hremainder.mpr h)]

/-- How the two roundings differ for either sign of the divisor. -/
theorem tdiv_eq_fdiv_add (hb : b ≠ 0) :
    a.tdiv b = a.fdiv b + if (0 < a.tmod b ∧ b < 0) ∨ (a.tmod b < 0 ∧ 0 < b) then 1 else 0 := by
  rcases lt_or_gt_of_ne hb with hneg | hpos
  · have hflip := tdiv_eq_of_pos (a := -a) (b := -b) (by omega)
    rw [Int.neg_tdiv_neg, Int.neg_fdiv_neg, Int.neg_tmod, Int.tmod_neg] at hflip
    rw [hflip]
    congr 2
    simp only [eq_iff_iff]
    omega
  · rw [tdiv_eq_of_pos hpos]
    congr 2
    simp only [eq_iff_iff]
    omega

/-- Where the roundings differ, the quotient is negative. -/
theorem fdiv_neg_of_corrects (h : (0 < a.tmod b ∧ b < 0) ∨ (a.tmod b < 0 ∧ 0 < b)) : a.fdiv b < 0 := by
  rcases h with ⟨hremainder, hneg⟩ | ⟨hremainder, hpos⟩
  · have ha : 0 < a := by
      by_contra hle
      have hflip := Int.tmod_nonneg b (show 0 ≤ -a by omega)
      rw [Int.neg_tmod] at hflip
      omega
    rw [← Int.neg_fdiv_neg]
    exact Int.fdiv_neg_of_neg_of_pos (by omega) (by omega)
  · have ha : a < 0 := by
      by_contra hle
      have := Int.tmod_nonneg b (show 0 ≤ a by omega)
      omega
    exact Int.fdiv_neg_of_neg_of_pos ha hpos

/-- The instructions for a floor succeed unless the divisor is zero or minus one. -/
theorem floorQuotient_eq (hA : A.holds 1 = true) (ha : A.holds a = true) (hb : b ≠ 0) (hb' : b ≠ -1) :
    A.floorQuotient a b = some (a.fdiv b) := by
  have hfloor : A.holds (a.fdiv b) = true := A.holds_fdiv hA ha hb hb'
  have hrounded := tdiv_eq_fdiv_add (a := a) hb
  unfold floorQuotient quotient
  rw [if_neg hb]
  by_cases hcorrects : (0 < a.tmod b ∧ b < 0) ∨ (a.tmod b < 0 ∧ 0 < b)
  · rw [if_pos hcorrects] at hrounded
    have hnegative := fdiv_neg_of_corrects hcorrects
    have hheld : A.holds (a.tdiv b) = true :=
      holds_of_between hA hfloor (Or.inr (by omega))
    have hdown : a.tdiv b - 1 = a.fdiv b := by omega
    rw [if_pos hheld, Option.bind_some, if_pos hcorrects, hdown, if_pos hfloor]
  · rw [if_neg hcorrects, add_zero] at hrounded
    rw [hrounded, if_pos hfloor, Option.bind_some, if_neg hcorrects]

/-- Words of two bits or more hold one. -/
theorem holds_one_of_two_le {bits : ℕ} (hbits : 2 ≤ bits) : (wrapping bits).holds 1 = true := by
  have hhalf : halfRange bits = 2 * 2 ^ (bits - 2) := by
    rw [halfRange_eq, ← pow_succ']
    congr 1
    omega
  have hpos : (0 : ℤ) < 2 ^ (bits - 2) := by positivity
  rw [holds_wrapping_iff]
  omega

/-- Only the least word has no negation. -/
theorem eq_least {bits : ℕ} (ha : (wrapping bits).holds a = true)
    (hneg : (wrapping bits).holds (-a) = false) : a = -halfRange bits := by
  rw [← Bool.not_eq_true, holds_wrapping_iff] at hneg
  rw [holds_wrapping_iff] at ha
  omega

end Arithmetic

namespace Fraction

variable {A : Arithmetic} {a b : Fraction} {num den : ℤ} {bits : ℕ}

/-! ## Reduction -/

/-- The rest of a reduction after its sign has moved. -/
def divideOut (A : Arithmetic) (num den : ℤ) : Option Fraction :=
  if num = 0 then some zero
  else do
    let divisor ← A.divisor num den
    let num ← A.quotient num divisor
    let den ← A.quotient den divisor
    some ⟨num, den⟩

/-- A reduction by instructions; none if one of them is not defined. -/
def reduceInWords (A : Arithmetic) (num den : ℤ) : Option Fraction :=
  match moveSign A num den with
  | .ok (num, den) => divideOut A num den
  | .error _ => none

/-- The instructions for a reduction succeed where the reduction does. -/
theorem reduceInWords_of_eq_ok (hA : A.holds 1 = true) (hnum : A.holds num = true)
    (hden : A.holds den = true) (h : reduce A num den = .ok a) :
    reduceInWords A num den = some a := by
  rcases bind_eq_ok.mp h with ⟨⟨num', den'⟩, hmove, h⟩
  have hmoved := (safe_moveSign hA hnum hden).of_eq_ok hmove
  unfold reduceInWords
  rw [hmove]
  show divideOut A num' den' = some a
  unfold divideOut
  dsimp only at h
  split at h
  · next hzero =>
      rw [if_pos hzero, pure_eq_ok.mp h]
  · next hne =>
      rcases bind_eq_ok.mp h with ⟨g, hg, h⟩
      obtain ⟨rfl, hheld⟩ := Arithmetic.demand_eq_ok hg
      have hpos : (0 : ℤ) < Int.gcd num' den' := by
        exact_mod_cast Int.gcd_pos_of_ne_zero_left den' hne
      have hdivisor : A.divisor num' den' = some (Int.gcd num' den' : ℤ) := if_pos hheld
      have hnumQuotient := A.quotient_of_dvd hA hmoved.num_held hpos (Int.gcd_dvd_left num' den')
      have hdenQuotient := A.quotient_of_dvd hA hmoved.den_held hpos (Int.gcd_dvd_right num' den')
      rw [if_neg hne, ← pure_eq_ok.mp h]
      simp [hdivisor, hnumQuotient, hdenQuotient]

/-- The form of a fraction that is stored in words. -/
structure InWords (bits : ℕ) (a : Fraction) : Prop extends Proper (.wrapping bits) a where
  den_form : 0 < a.den ∨ ∃ k, 1 ≤ k ∧ k ≤ bits - 1 ∧ a.den = -2 ^ k ∧ Odd a.num
  zero_form : a.num = 0 → a = zero

/-- The numerator over an even denominator is odd. -/
theorem Proper.odd_num (ha : Proper A a) (heven : (2 : ℤ) ∣ a.den) : Odd a.num := by
  rw [← Int.not_even_iff_odd]
  intro hnum
  have hdvd := Int.dvd_coe_gcd hnum.two_dvd heven
  rw [ha.coprime] at hdvd
  omega

/-- A proper fraction whose negative denominator is a power of two has the form. -/
theorem Proper.inWords (ha : Proper (.wrapping bits) a)
    (hden : 0 < a.den ∨ ∃ k ≤ bits - 1, a.den = -2 ^ k) : InWords bits a := by
  refine ⟨ha, hden.imp_right ?_, ha.eq_zero⟩
  rintro ⟨k, hk, hpower⟩
  have hpos : 1 ≤ k := by
    rw [Nat.one_le_iff_ne_zero]
    rintro rfl
    exact ha.den_ne_neg_one hpower
  refine ⟨k, hpos, hk, hpower, ha.odd_num ?_⟩
  rw [hpower]
  exact dvd_neg.mpr (dvd_pow_self 2 (by omega))

/-- Reduced pairs have the form: a denominator that stays negative is the least word, divided by a power
of two. -/
theorem inWords_of_reduce (hA : (Arithmetic.wrapping bits).holds 1 = true)
    (hnum : (Arithmetic.wrapping bits).holds num = true)
    (hden : (Arithmetic.wrapping bits).holds den = true) (hne : den ≠ 0)
    (h : reduce (.wrapping bits) num den = .ok a) : InWords bits a := by
  have hproper := (safe_reduce hA hnum hden hne).of_eq_ok h
  refine hproper.inWords ?_
  rcases bind_eq_ok.mp h with ⟨⟨num', den'⟩, hmove, h⟩
  have hmoved := (safe_moveSign hA hnum hden).of_eq_ok hmove
  dsimp only at h
  split at h
  · obtain rfl := pure_eq_ok.mp h
    exact Or.inl one_pos
  · next hzero =>
      rcases bind_eq_ok.mp h with ⟨g, hg, h⟩
      obtain ⟨rfl, -⟩ := Arithmetic.demand_eq_ok hg
      obtain rfl := pure_eq_ok.mp h
      show 0 < den' / Int.gcd num' den' ∨ ∃ k ≤ bits - 1, den' / Int.gcd num' den' = -2 ^ k
      have hdvd : (Int.gcd num' den' : ℤ) ∣ den' := Int.gcd_dvd_right num' den'
      have hdenAbs : den'.natAbs = den.natAbs := hmoved.den_abs
      rcases lt_or_gt_of_ne (show den' ≠ 0 by omega) with hneg | hpos
      · right
        -- Only the least word stays negative, and its divisors are powers of two.
        have hleast : den' = -2 ^ (bits - 1) := Arithmetic.eq_least hmoved.den_held (hmoved.den_neg hneg)
        have hpower : Int.gcd num' den' ∣ 2 ^ (bits - 1) := by
          rw [hleast, dvd_neg] at hdvd
          rw [hleast]
          exact_mod_cast hdvd
        rcases (Nat.dvd_prime_pow Nat.prime_two).mp hpower with ⟨j, hj, hgcd⟩
        refine ⟨bits - 1 - j, Nat.sub_le _ j, ?_⟩
        have hsplit : (2 : ℤ) ^ (bits - 1) = 2 ^ (bits - 1 - j) * 2 ^ j := by
          rw [← pow_add, Nat.sub_add_cancel hj]
        rw [hgcd, hleast, hsplit, Nat.cast_pow, Nat.cast_ofNat, ← neg_mul]
        exact Int.mul_ediv_cancel _ (by positivity)
      · left
        exact Int.ediv_pos_of_pos_of_dvd hpos (Int.natCast_nonneg _) hdvd

/-! ## Operations -/

/-- An integer that is held is a fraction of words. -/
theorem inWords_ofInt (hA : (Arithmetic.wrapping bits).holds 1 = true) {n : ℤ}
    (hn : (Arithmetic.wrapping bits).holds n = true) : InWords bits (ofInt n) :=
  (Proper.ofInt hA hn).inWords (Or.inl one_pos)

namespace InWords

/-- The denominator has one of the two forms. -/
theorem den_cases (ha : InWords bits a) : 0 < a.den ∨ ∃ k ≤ bits - 1, a.den = -2 ^ k :=
  ha.den_form.imp_right fun ⟨k, _, hk, hpower, _⟩ => ⟨k, hk, hpower⟩

/-- A negation keeps the denominator. -/
theorem neg (hA : (Arithmetic.wrapping bits).holds 1 = true) (ha : InWords bits a)
    (h : Fraction.neg (.wrapping bits) a = .ok b) : InWords bits b := by
  have hproper := ((safe_neg hA ha.toProper).of_eq_ok h).1
  rcases bind_eq_ok.mp h with ⟨num, -, h⟩
  obtain rfl := pure_eq_ok.mp h
  exact hproper.inWords ha.den_cases

/-- The absolute value of a fraction of words is one. -/
theorem abs (hA : (Arithmetic.wrapping bits).holds 1 = true) (ha : InWords bits a)
    (h : Fraction.abs (.wrapping bits) a = .ok b) : InWords bits b := by
  unfold Fraction.abs at h
  split at h
  · exact ha.neg hA h
  · obtain rfl := pure_eq_ok.mp h
    exact ha

/-- The floor of a fraction of words is one. -/
theorem floor (hA : (Arithmetic.wrapping bits).holds 1 = true) (ha : InWords bits a) :
    InWords bits a.floor :=
  (ha.toProper.floor hA).inWords (Or.inl one_pos)

/-- The instructions for the floor succeed. -/
theorem floorQuotient_eq (hA : (Arithmetic.wrapping bits).holds 1 = true) (ha : InWords bits a) :
    (Arithmetic.wrapping bits).floorQuotient a.num a.den = some a.floor.num :=
  Arithmetic.floorQuotient_eq hA ha.num_held ha.den_ne_zero ha.den_ne_neg_one

end InWords
end Fraction
end ExactSimplex
