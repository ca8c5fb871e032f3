import ExactSimplex.Proofs.Fraction.Operations
import ExactSimplex.Proofs.Fraction.Refinement

/-!
# Magnitudes

An operation on fractions forms products of the stored integers, and a difference of two of them for a
subtraction.  If the operands are small, then all of these are less than half the range of a word, and checked
arithmetic completes the operation.  Dividing out the greatest common divisor makes the integers no larger, so the
result is bounded by the products.

Main results:

- Theorem {lit}`Fraction.completes_reduce`: a pair is reduced to integers that are no larger.
- Theorems {lit}`Fraction.completes_mul`, {lit}`Fraction.completes_div` and {lit}`Fraction.completes_sub`: how much
  an operation can enlarge its operands.
- Theorem {lit}`Fraction.cross_of_within`: products over the common denominator are exact.
-/

namespace ExactSimplex
namespace Calc

variable {α β : Type} {c c' : Calc α} {P Q : α → Prop} {R : β → Prop}

/-- The calculation yields a result, and the result satisfies `P`. -/
def Completes (c : Calc α) (P : α → Prop) : Prop := ∃ a, c = .ok a ∧ P a

theorem completes_ok {a : α} (h : P a) : Completes (.ok a) P := ⟨a, rfl, h⟩

namespace Completes

theorem imp (h : Completes c P) (himp : ∀ a, P a → Q a) : Completes c Q := by
  rcases h with ⟨a, hc, ha⟩
  exact ⟨a, hc, himp a ha⟩

/-- Two parts that complete make a calculation that does. -/
theorem bind {f : α → Calc β} (h : Completes c P) (hf : ∀ a, P a → Completes (f a) R) :
    Completes (c >>= f) R := by
  rcases h with ⟨a, rfl, ha⟩
  exact hf a ha

/-- What is completed for every member of a list, by induction on the list. -/
theorem mapM {f : α → Calc β} {l : List α} (h : ∀ a ∈ l, Completes (f a) R) :
    Completes (l.mapM f) fun results => results.length = l.length ∧ ∀ b ∈ results, R b := by
  induction l with
  | nil => exact ⟨[], rfl, rfl, nofun⟩
  | cons a l ih =>
      rw [List.forall_mem_cons] at h
      rw [List.mapM_cons]
      refine h.1.bind fun b hb => (ih h.2).bind fun results hresults => ?_
      exact completes_ok ⟨congrArg (· + 1) hresults.1, List.forall_mem_cons.mpr ⟨hb, hresults.2⟩⟩

/-- A completed calculation and one that it refines are the same. -/
theorem eq_of_refines (h : Completes c P) (hrefines : Refines c c') : c' = c := by
  rcases h with ⟨a, rfl, -⟩
  exact hrefines a rfl

end Completes

/-- Calculations that go on in the same way from every result of their first part are the same. -/
theorem bind_congr {f g : α → Calc β} (h : ∀ a, c = .ok a → f a = g a) : c >>= f = c >>= g := by
  cases c with
  | error fault => rfl
  | ok a => exact h a rfl

end Calc

namespace Fraction

open Calc

/-- Both integers of the fraction are at most `x` in magnitude, and the denominator is positive. -/
structure Within (x : ℤ) (a : Fraction) : Prop where
  num_le : |a.num| ≤ x
  den_pos : 0 < a.den
  den_le : a.den ≤ x

namespace Within

variable {x y : ℤ} {a b : Fraction}

/-- A bound on a fraction is at least one, because its denominator is not zero. -/
theorem one_le (ha : a.Within x) : 1 ≤ x :=
  Int.add_one_le_of_lt (ha.den_pos.trans_le ha.den_le)

theorem mono (ha : a.Within x) (h : x ≤ y) : a.Within y :=
  ⟨ha.num_le.trans h, ha.den_pos, ha.den_le.trans h⟩

/-- Zero is within every bound from one on. -/
theorem zero (h : 1 ≤ x) : Fraction.zero.Within x :=
  ⟨by simpa [Fraction.zero, ofInt] using (zero_le_one.trans h), one_pos, h⟩

/-- The denominator is within the bound. -/
theorem abs_den_le (ha : a.Within x) : |a.den| ≤ x := by
  rw [abs_of_pos ha.den_pos]
  exact ha.den_le

end Within

variable {bits : ℕ} {x y num den n : ℤ} {a b : Fraction}

/-! ## Integers -/

/-- The product of two bounded integers is bounded by the product of their bounds. -/
theorem abs_mul_le {p q : ℤ} (hp : |p| ≤ x) (hq : |q| ≤ y) : |p * q| ≤ x * y := by
  rw [abs_mul]
  exact mul_le_mul hp hq (abs_nonneg q) ((abs_nonneg p).trans hp)

/-- Checked arithmetic stores what is less than half its range in magnitude. -/
theorem store_of_abs_lt (h : |n| < Arithmetic.halfRange bits) : (Arithmetic.checked bits).store n = .ok n :=
  if_pos (Arithmetic.holds_checked_iff.mpr (abs_lt.mp h))

/-! ## Reduction -/

/-- The sign of a pair moves, and its magnitudes stay. -/
theorem completes_moveSign (hnum : |num| ≤ x) (hden : |den| ≤ x) (hne : den ≠ 0)
    (hx : x < Arithmetic.halfRange bits) : Completes (moveSign (.checked bits) num den) fun pair =>
      |pair.1| ≤ x ∧ 0 < pair.2 ∧ pair.2 ≤ x := by
  have hbounds := abs_le.mp hden
  unfold moveSign
  split
  · next hneg =>
      have hnumNeg : (Arithmetic.checked bits).neg num = .ok (-num) :=
        store_of_abs_lt (by rw [abs_neg]; exact hnum.trans_lt hx)
      have hdenNeg : (Arithmetic.checked bits).neg den = .ok (-den) :=
        store_of_abs_lt (by rw [abs_neg]; exact hden.trans_lt hx)
      rw [hnumNeg, hdenNeg]
      exact completes_ok ⟨by rwa [abs_neg], by omega, by omega⟩
  · next hpos => exact completes_ok ⟨hnum, by omega, hbounds.2⟩

/-- A pair is reduced to integers that are no larger. -/
theorem completes_reduce (hnum : |num| ≤ x) (hden : |den| ≤ x) (hne : den ≠ 0)
    (hx : x < Arithmetic.halfRange bits) : Completes (reduce (.checked bits) num den) (Within x) := by
  refine (completes_moveSign hnum hden hne hx).bind fun ⟨num', den'⟩ ⟨hnum', hpos, hden'⟩ => ?_
  dsimp only at hnum' hpos hden' ⊢
  split
  · exact completes_ok (.zero (by omega))
  · have hnumHeld : (Arithmetic.checked bits).holds num' = true :=
      Arithmetic.holds_checked_iff.mpr (abs_lt.mp (hnum'.trans_lt hx))
    have hdenHeld : (Arithmetic.checked bits).holds den' = true :=
      Arithmetic.holds_checked_iff.mpr (by omega)
    rw [Arithmetic.gcd_checked hnumHeld hdenHeld]
    have hnumLe : |num' / Int.gcd num' den'| ≤ |num'| := Int.abs_ediv_le_abs num' _
    have hquotPos : 0 < den' / Int.gcd num' den' :=
      Int.ediv_pos_of_pos_of_dvd hpos (Int.natCast_nonneg _) (Int.gcd_dvd_right num' den')
    have hquotLe : den' / Int.gcd num' den' ≤ den' := Int.ediv_le_self _ hpos.le
    exact completes_ok ⟨hnumLe.trans hnum', hquotPos, hquotLe.trans hden'⟩

/-- A pair within a bound below half the range is reduced within the bound. -/
theorem completes_ofRatio (hnum : |num| ≤ x) (hden : |den| ≤ x) (hne : den ≠ 0)
    (hx : x < Arithmetic.halfRange bits) : Completes (ofRatio (.checked bits) num den) (Within x) := by
  rw [ofRatio_of_ne _ hne]
  exact completes_reduce hnum hden hne hx

/-! ## Operations -/

section Operations

variable (ha : a.Within x) (hb : b.Within y)

include ha hb

/-- A product is within the product of the bounds. -/
theorem completes_mul (hxy : x * y < Arithmetic.halfRange bits) :
    Completes (mul (.checked bits) a b) (Within (x * y)) := by
  have hnum := abs_mul_le ha.num_le hb.num_le
  have hden := abs_mul_le ha.abs_den_le hb.abs_den_le
  have hnumStore : (Arithmetic.checked bits).mul a.num b.num = .ok (a.num * b.num) :=
    store_of_abs_lt (hnum.trans_lt hxy)
  have hdenStore : (Arithmetic.checked bits).mul a.den b.den = .ok (a.den * b.den) :=
    store_of_abs_lt (hden.trans_lt hxy)
  rw [mul_eq, hnumStore, hdenStore]
  exact completes_ofRatio hnum hden (mul_pos ha.den_pos hb.den_pos).ne' hxy

/-- The quotient by zero is zero. -/
theorem completes_div (hxy : x * y < Arithmetic.halfRange bits) :
    Completes (div (.checked bits) a b) (Within (x * y)) := by
  cases hzero : b.isZero with
  | true =>
      rw [div_of_isZero _ _ hzero]
      exact completes_ok (.zero (one_le_mul_of_one_le_of_one_le ha.one_le hb.one_le))
  | false =>
      have hne : b.num ≠ 0 := by simpa [isZero] using hzero
      have hnum := abs_mul_le ha.num_le hb.abs_den_le
      have hden := abs_mul_le ha.abs_den_le hb.num_le
      have hnumStore : (Arithmetic.checked bits).mul a.num b.den = .ok (a.num * b.den) :=
        store_of_abs_lt (hnum.trans_lt hxy)
      have hdenStore : (Arithmetic.checked bits).mul a.den b.num = .ok (a.den * b.num) :=
        store_of_abs_lt (hden.trans_lt hxy)
      rw [div_eq _ _ hzero, hnumStore, hdenStore]
      exact completes_ofRatio hnum hden (mul_ne_zero ha.den_pos.ne' hne) hxy

/-- The products over the common denominator are exact. -/
theorem cross_of_within (hxy : x * y < Arithmetic.halfRange bits) :
    cross (.checked bits) a b = .ok (a.num * b.den, b.num * a.den) := by
  have hleft := abs_mul_le ha.num_le hb.abs_den_le
  have hright := abs_mul_le hb.num_le ha.abs_den_le
  rw [mul_comm y x] at hright
  have hleftStore : (Arithmetic.checked bits).mul a.num b.den = .ok (a.num * b.den) :=
    store_of_abs_lt (hleft.trans_lt hxy)
  have hrightStore : (Arithmetic.checked bits).mul b.num a.den = .ok (b.num * a.den) :=
    store_of_abs_lt (hright.trans_lt hxy)
  unfold cross
  rw [hleftStore, hrightStore]
  rfl

/-- Two products are subtracted, so the bound doubles. -/
theorem completes_sub (hxy : 2 * (x * y) < Arithmetic.halfRange bits) :
    Completes (sub (.checked bits) a b) (Within (2 * (x * y))) := by
  have hnonneg : 0 ≤ x * y := mul_nonneg (zero_le_one.trans ha.one_le) (zero_le_one.trans hb.one_le)
  have hleft := abs_mul_le ha.num_le hb.abs_den_le
  have hright := abs_mul_le hb.num_le ha.abs_den_le
  rw [mul_comm y x] at hright
  have hnum : |a.num * b.den - b.num * a.den| ≤ 2 * (x * y) := by
    have htriangle := abs_sub (a.num * b.den) (b.num * a.den)
    omega
  have hden : |a.den * b.den| ≤ 2 * (x * y) := by
    have hproduct := abs_mul_le ha.abs_den_le hb.abs_den_le
    omega
  have hnumStore : (Arithmetic.checked bits).sub (a.num * b.den) (b.num * a.den) =
      .ok (a.num * b.den - b.num * a.den) :=
    store_of_abs_lt (hnum.trans_lt hxy)
  have hdenStore : (Arithmetic.checked bits).mul a.den b.den = .ok (a.den * b.den) :=
    store_of_abs_lt (hden.trans_lt hxy)
  rw [sub_eq, cross_of_within ha hb (by omega)]
  show Completes (((Arithmetic.checked bits).sub (a.num * b.den) (b.num * a.den)) >>= _) _
  rw [hnumStore, hdenStore]
  exact completes_ofRatio hnum hden (mul_pos ha.den_pos hb.den_pos).ne' hxy

/-- A comparison needs only the cross products. -/
theorem completes_lt (hxy : x * y < Arithmetic.halfRange bits) :
    Completes (lt (.checked bits) a b) fun _ => True := by
  unfold lt
  rw [cross_of_within ha hb hxy]
  exact completes_ok trivial

theorem completes_eq (hxy : x * y < Arithmetic.halfRange bits) :
    Completes (eq (.checked bits) a b) fun _ => True := by
  unfold eq
  rw [cross_of_within ha hb hxy]
  exact completes_ok trivial

end Operations

/-- An absolute value is within the same bound. -/
theorem completes_abs (ha : a.Within x) (hx : x < Arithmetic.halfRange bits) :
    Completes (abs (.checked bits) a) (Within x) := by
  unfold abs
  split
  · have hneg : (Arithmetic.checked bits).neg a.num = .ok (-a.num) :=
      store_of_abs_lt (by rw [abs_neg]; exact ha.num_le.trans_lt hx)
    unfold neg
    rw [hneg]
    exact completes_ok ⟨by rw [abs_neg]; exact ha.num_le, ha.den_pos, ha.den_le⟩
  · exact completes_ok ha

end Fraction
end ExactSimplex
