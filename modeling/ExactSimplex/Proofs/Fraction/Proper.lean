import ExactSimplex.Fraction.Basic
import ExactSimplex.Proofs.Arithmetic

/-!
# Fractions in any arithmetic

Where results wrap, a stored fraction need not have the value that it should.  What every operation
keeps is that the pair is coprime, with a denominator that is neither zero nor minus one.  Reduction
establishes this for every pair, and of the pairs that pivots depend on it makes exactly zero and one,
whatever wrapped on the way.

Main results:

- Theorem {lit}`Fraction.safe_reduce`: every reduced pair is proper.
- Theorems {lit}`Fraction.safe_reduce_zero` and {lit}`Fraction.safe_reduce_self`: the pairs that reduce to
  zero and to one.
- Theorem {lit}`Fraction.reduce_wrapping_fault`: the only pair that cannot be reduced.
-/

namespace ExactSimplex
namespace Fraction

open Calc

variable {A : Arithmetic} {a b : Fraction} {num den : ℤ}

/-- The pair is held and coprime, and the denominator is neither zero nor minus one. -/
structure Proper (A : Arithmetic) (a : Fraction) : Prop where
  num_held : A.holds a.num = true
  den_held : A.holds a.den = true
  den_ne_zero : a.den ≠ 0
  den_ne_neg_one : a.den ≠ -1
  coprime : Int.gcd a.num a.den = 1

namespace Proper

/-- An integer that is held is a proper fraction. -/
theorem ofInt (hA : A.holds 1 = true) {n : ℤ} (hn : A.holds n = true) : Proper A (ofInt n) :=
  ⟨hn, hA, one_ne_zero, show (1 : ℤ) ≠ -1 by decide, Int.gcd_one_right n⟩

theorem zero (hA : A.holds 1 = true) : Proper A zero :=
  ofInt hA (Arithmetic.holds_zero hA)

theorem one (hA : A.holds 1 = true) : Proper A one :=
  ofInt hA hA

/-- Zero has only one proper form. -/
theorem eq_zero (ha : Proper A a) (hzero : a.num = 0) : a = Fraction.zero := by
  rcases a with ⟨num, den⟩
  obtain rfl : num = 0 := hzero
  have hcoprime : Int.gcd 0 den = 1 := ha.coprime
  have hne : den ≠ -1 := ha.den_ne_neg_one
  rw [Int.gcd_zero_left] at hcoprime
  obtain rfl : den = 1 := by omega
  rfl

/-- One has only one proper form. -/
theorem eq_one (ha : Proper A a) (hone : a.num = a.den) : a = Fraction.one := by
  rcases a with ⟨num, den⟩
  obtain rfl : num = den := hone
  have hcoprime : Int.gcd num num = 1 := ha.coprime
  have hne : num ≠ -1 := ha.den_ne_neg_one
  rw [Int.gcd_self] at hcoprime
  obtain rfl : num = 1 := by omega
  rfl

/-- There is only one proper fraction that is zero. -/
theorem isZero_iff (ha : Proper A a) : a.isZero = true ↔ a = Fraction.zero := by
  constructor
  · intro h
    exact ha.eq_zero (by simpa [isZero] using h)
  · rintro rfl
    rfl

end Proper

/-! ## Reduction -/

/-- What becomes of a pair when its sign moves to the numerator: the magnitudes stay, and both are
negated up to multiples of the modulus, or neither is. -/
structure SignMoved (A : Arithmetic) (num den : ℤ) (pair : ℤ × ℤ) : Prop where
  num_held : A.holds pair.1 = true
  den_held : A.holds pair.2 = true
  num_abs : pair.1.natAbs = num.natAbs
  den_abs : pair.2.natAbs = den.natAbs
  den_neg : pair.2 < 0 → A.holds (-pair.2) = false
  same_sign : (pair.1 = num ∧ pair.2 = den) ∨
    (pair.1 ≡ -num [ZMOD A.modulus] ∧ pair.2 ≡ -den [ZMOD A.modulus])

/-- Moving the sign stays within the arithmetic, and leaves a negative denominator only to the least word. -/
theorem safe_moveSign (hA : A.holds 1 = true) (hnum : A.holds num = true)
    (hden : A.holds den = true) :
    Safe A (moveSign A num den) (SignMoved A num den) := by
  unfold moveSign
  split
  · next hneg =>
      refine (A.safe_neg hA hnum).bind fun num' hnum' => ?_
      refine (A.safe_neg hA hden).bind fun den' hden' => ?_
      have hnumCases := hnum'.2.2
      have hdenCases := hden'.2.2
      refine safe_pure ⟨hnum'.1, hden'.1, by omega, by omega, fun hlt => ?_,
        Or.inr ⟨hnum'.2.1, hden'.2.1⟩⟩
      rcases hdenCases with hexact | ⟨hsame, hrange⟩
      · omega
      · rwa [hsame]
  · next hneg => exact safe_pure ⟨hnum, hden, rfl, rfl, fun hlt => absurd hlt hneg, Or.inl ⟨rfl, rfl⟩⟩

/-- A pair with a nonzero denominator is reduced to a proper fraction. -/
theorem safe_reduce (hA : A.holds 1 = true) (hnum : A.holds num = true) (hden : A.holds den = true)
    (hne : den ≠ 0) : Safe A (reduce A num den) (Proper A) := by
  refine (safe_moveSign hA hnum hden).bind fun ⟨num', den'⟩ hmoved => ?_
  dsimp only
  split
  · exact safe_pure (.zero hA)
  · next hzero =>
      refine (A.safe_gcd hA hmoved.num_held hzero den').bind fun divisor hdivisor => ?_
      obtain ⟨rfl, hheld⟩ := hdivisor
      have hpos : 0 < Int.gcd num' den' := Int.gcd_pos_of_ne_zero_left den' hzero
      have hposInt : (0 : ℤ) < Int.gcd num' den' := by exact_mod_cast hpos
      have hdvd : (Int.gcd num' den' : ℤ) ∣ den' := Int.gcd_dvd_right num' den'
      have hdenAbs : den'.natAbs = den.natAbs := hmoved.den_abs
      have hquotient : den' / Int.gcd num' den' * Int.gcd num' den' = den' := Int.ediv_mul_cancel hdvd
      refine safe_pure ⟨A.holds_ediv hA hmoved.num_held hposInt (Int.gcd_dvd_left num' den'),
        A.holds_ediv hA hmoved.den_held hposInt hdvd, fun h => ?_, fun h => ?_,
        Int.gcd_ediv_gcd_ediv_gcd hpos⟩
      · have hquot : den' / Int.gcd num' den' = 0 := h
        rw [hquot, zero_mul] at hquotient
        omega
      · -- The denominator would be a negated divisor, but the divisor is held.
        have hquot : den' / Int.gcd num' den' = -1 := h
        rw [hquot] at hquotient
        have hrange := hmoved.den_neg (show den' < 0 by omega)
        rw [show -den' = Int.gcd num' den' by omega, hheld] at hrange
        cases hrange

/-- Zero over anything is reduced to zero. -/
theorem safe_reduce_zero (hA : A.holds 1 = true) (hden : A.holds den = true) :
    Safe A (reduce A 0 den) (· = zero) := by
  refine (safe_moveSign hA (A.holds_zero hA) hden).bind fun ⟨num', den'⟩ hmoved => ?_
  have hzero : num' = 0 := Int.natAbs_eq_zero.mp hmoved.num_abs
  dsimp only
  rw [if_pos hzero]
  exact safe_pure rfl

/-- A nonzero integer over itself is reduced to one. -/
theorem safe_reduce_self (hA : A.holds 1 = true) {v : ℤ} (hv : A.holds v = true) (hne : v ≠ 0) :
    Safe A (reduce A v v) (· = one) := by
  have hsame : Safe A (moveSign A v v) fun pair => SignMoved A v v pair ∧ pair.1 = pair.2 := by
    refine (safe_moveSign hA hv hv).with_eq.imp fun pair hpair => ⟨hpair.2, ?_⟩
    have hrun := hpair.1
    unfold moveSign at hrun
    split at hrun
    · rcases bind_eq_ok.mp hrun with ⟨num, hnum, hrun⟩
      rcases bind_eq_ok.mp hrun with ⟨den, hden, hrun⟩
      obtain rfl := Except.ok.inj (hnum.symm.trans hden)
      rw [← pure_eq_ok.mp hrun]
    · rw [← pure_eq_ok.mp hrun]
  refine hsame.bind fun ⟨num', den'⟩ ⟨hmoved, heq⟩ => ?_
  obtain rfl : num' = den' := heq
  have habs : num'.natAbs = v.natAbs := hmoved.num_abs
  dsimp only
  have hne' : num' ≠ 0 := by omega
  rw [if_neg hne']
  refine (A.safe_gcd hA hmoved.num_held hne' _).bind fun divisor hdivisor => ?_
  obtain ⟨rfl, hheld⟩ := hdivisor
  rw [Int.gcd_self] at hheld ⊢
  have hpos : 0 < num' := by
    by_contra hneg
    have hrange := hmoved.den_neg (show num' < 0 by omega)
    rw [show -num' = (num'.natAbs : ℤ) by omega, hheld] at hrange
    cases hrange
  have hdivisor : (num'.natAbs : ℤ) = num' := by omega
  rw [hdivisor, Int.ediv_self hpos.ne']
  exact safe_pure rfl

/-- Reducing a coprime pair does no more than to move its sign. -/
theorem safe_reduce_coprime (hA : A.holds 1 = true) (hnum : A.holds num = true)
    (hden : A.holds den = true) (hne : num ≠ 0) (hcoprime : Int.gcd num den = 1) :
    Safe A (reduce A num den) fun a => SignMoved A num den (a.num, a.den) := by
  refine (safe_moveSign hA hnum hden).bind fun ⟨num', den'⟩ hmoved => ?_
  have hnumAbs : num'.natAbs = num.natAbs := hmoved.num_abs
  have hdenAbs : den'.natAbs = den.natAbs := hmoved.den_abs
  have hgcd : Int.gcd num' den' = 1 := by
    rw [← hcoprime, Int.gcd_def, Int.gcd_def, hnumAbs, hdenAbs]
  dsimp only
  have hne' : num' ≠ 0 := by omega
  rw [if_neg hne']
  refine (A.safe_gcd hA hmoved.num_held hne' _).bind fun divisor hdivisor => ?_
  obtain ⟨rfl, -⟩ := hdivisor
  rw [hgcd, Nat.cast_one, Int.ediv_one, Int.ediv_one]
  exact safe_pure hmoved

/-- The only fault of a reduction is that both integers are the least word, whose greatest common divisor
does not fit. -/
theorem reduce_wrapping_fault {bits : ℕ} {fault : Fault} (hA : (Arithmetic.wrapping bits).holds 1 = true)
    (hnum : (Arithmetic.wrapping bits).holds num = true)
    (hden : (Arithmetic.wrapping bits).holds den = true) (hne : den ≠ 0)
    (h : reduce (.wrapping bits) num den = .error fault) :
    num = -Arithmetic.halfRange bits ∧ den = -Arithmetic.halfRange bits ∧
      fault = .overflow (Arithmetic.halfRange bits) := by
  have hsign : ∃ pair, moveSign (.wrapping bits) num den = .ok pair := by
    unfold moveSign
    split
    · exact ⟨_, rfl⟩
    · exact ⟨_, rfl⟩
  rcases hsign with ⟨⟨num', den'⟩, hsign⟩
  have hmoved := (safe_moveSign hA hnum hden).of_eq_ok hsign
  have hnumAbs : num'.natAbs = num.natAbs := hmoved.num_abs
  have hdenAbs : den'.natAbs = den.natAbs := hmoved.den_abs
  unfold reduce at h
  simp only [hsign, bind, Except.bind] at h
  split at h
  · cases h
  · next hzero =>
      by_cases hheld : (Arithmetic.wrapping bits).holds (Int.gcd num' den') = true
      · simp [Arithmetic.gcd, Arithmetic.demand, hheld, pure, Except.pure] at h
      · obtain rfl : Fault.overflow (Int.gcd num' den') = fault := by
          simpa [Arithmetic.gcd, Arithmetic.demand, hheld] using h
        have hleNum : Int.gcd num' den' ≤ num'.natAbs := Int.gcd_le_natAbs_left den' hzero
        have hleDen : Int.gcd num' den' ≤ den'.natAbs :=
          Int.gcd_le_natAbs_right num' (show den' ≠ 0 by omega)
        rw [Arithmetic.holds_wrapping_iff] at hnum hden hheld
        have hgcd : (Int.gcd num' den' : ℤ) = Arithmetic.halfRange bits := by omega
        exact ⟨by omega, by omega, by rw [hgcd]⟩

end Fraction
end ExactSimplex
