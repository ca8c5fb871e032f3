import ExactSimplex.Proofs.Fraction.Exact
import ExactSimplex.Proofs.Fraction.Words

/-!
# Stored pairs that are reduced again

A stored fraction is coprime, so reducing its pair again does no more than to move its sign.  Where the
denominator is positive nothing moves.  A negative denominator of a word is lost, but the two forms are equal
to each other: their cross products differ by multiples of the modulus.

Main results:

- Theorem {lit}`Fraction.reduce_of_coprime`: coprime pairs with a positive denominator stay as they are.
- Theorem {lit}`Fraction.reduce_eq_self_iff`: no other pairs of words do.
- Theorem {lit}`Fraction.Proper.reread`: a stored fraction is reduced to one that is equal to it.
- Theorem {lit}`Fraction.Proper.exists_div_one`: a division by one yields an equal fraction.
-/

namespace ExactSimplex
namespace Fraction

open Calc

variable {A : Arithmetic} {a b : Fraction} {num den : ℤ} {bits : ℕ}

/-! ## Pairs that stay as they are -/

/-- A pair in lowest terms with a positive denominator is reduced already. -/
theorem reduce_of_coprime (hA : A.holds 1 = true) (hden : 0 < den) (hcoprime : Int.gcd num den = 1) :
    reduce A num den = .ok ⟨num, den⟩ := by
  have hmove : moveSign A num den = .ok (num, den) := if_neg hden.not_gt
  by_cases hzero : num = 0
  · subst hzero
    rw [Int.gcd_zero_left] at hcoprime
    obtain rfl : den = 1 := by omega
    exact reduce_zero A one_pos
  · have hgcd : A.gcd num den = .ok 1 := by
      unfold Arithmetic.gcd Arithmetic.demand
      rw [hcoprime, Nat.cast_one, if_pos hA]
    simp [reduce, hmove, hzero, hgcd, bind, Except.bind, pure, Except.pure]

/-- An integer that is its own stored negation is zero or the least word. -/
theorem eq_zero_or_least_of_neg (hA : (Arithmetic.wrapping bits).holds 1 = true) {n : ℤ}
    (hn : (Arithmetic.wrapping bits).holds n = true) (h : (Arithmetic.wrapping bits).neg n = .ok n) :
    n = 0 ∨ n = -Arithmetic.halfRange bits := by
  rcases ((Arithmetic.wrapping bits).safe_neg hA hn).of_eq_ok h with ⟨-, -, hexact | ⟨-, hrange⟩⟩
  · exact Or.inl (by omega)
  · exact Or.inr (Arithmetic.eq_least hn hrange)

/-- The denominator of a pair of words that stays as it is is positive, because otherwise both integers would
be the least word. -/
theorem den_pos_of_reduce (hA : (Arithmetic.wrapping bits).holds 1 = true)
    (hnum : (Arithmetic.wrapping bits).holds num = true)
    (hden : (Arithmetic.wrapping bits).holds den = true) (hne : den ≠ 0)
    (h : reduce (.wrapping bits) num den = .ok ⟨num, den⟩) : 0 < den := by
  have hcoprime : Int.gcd num den = 1 := ((safe_reduce hA hnum hden hne).of_eq_ok h).coprime
  by_contra hpos
  have hneg : den < 0 := by omega
  rcases bind_eq_ok.mp h with ⟨⟨num', den'⟩, hmove, h⟩
  have hmoved := (safe_moveSign hA hnum hden).of_eq_ok hmove
  have hgcd : Int.gcd num' den' = 1 := by
    rw [Int.gcd_def, hmoved.num_abs, hmoved.den_abs, ← Int.gcd_def, hcoprime]
  dsimp only at h
  split at h
  · have hzero := pure_eq_ok.mp h
    have hone : den = 1 := congrArg Fraction.den hzero.symm
    omega
  · next hzero =>
      rcases bind_eq_ok.mp h with ⟨g, hg, h⟩
      obtain ⟨rfl, -⟩ := Arithmetic.demand_eq_ok hg
      have hpair := pure_eq_ok.mp h
      rw [hgcd, Nat.cast_one, Int.ediv_one, Int.ediv_one, Fraction.mk.injEq] at hpair
      obtain ⟨rfl, rfl⟩ := hpair
      -- Both integers are their own negations, hence the least word, and these have a common divisor.
      unfold moveSign at hmove
      rw [if_pos hneg] at hmove
      rcases bind_eq_ok.mp hmove with ⟨num'', hnumNeg, hmove⟩
      rcases bind_eq_ok.mp hmove with ⟨den'', hdenNeg, hmove⟩
      obtain ⟨rfl, rfl⟩ := Prod.mk.inj (pure_eq_ok.mp hmove)
      have hnumLeast := (eq_zero_or_least_of_neg hA hnum hnumNeg).resolve_left hzero
      have hdenLeast := (eq_zero_or_least_of_neg hA hden hdenNeg).resolve_left hne
      have hhalf := (Arithmetic.holds_wrapping_iff.mp hA).2
      rw [hnumLeast, hdenLeast, Int.gcd_self] at hcoprime
      omega

/-- The pairs of words that stay as they are. -/
theorem reduce_eq_self_iff (hA : (Arithmetic.wrapping bits).holds 1 = true)
    (hnum : (Arithmetic.wrapping bits).holds num = true)
    (hden : (Arithmetic.wrapping bits).holds den = true) (hne : den ≠ 0) :
    reduce (.wrapping bits) num den = .ok ⟨num, den⟩ ↔ 0 < den ∧ Int.gcd num den = 1 := by
  constructor
  · intro h
    exact ⟨den_pos_of_reduce hA hnum hden hne h,
      ((safe_reduce hA hnum hden hne).of_eq_ok h).coprime⟩
  · rintro ⟨hpos, hcoprime⟩
    exact reduce_of_coprime hA hpos hcoprime

/-- The same, where a zero denominator is covered up by a zero. -/
theorem orZero_eq_self_iff (hA : (Arithmetic.wrapping bits).holds 1 = true)
    (hnum : (Arithmetic.wrapping bits).holds num = true)
    (hden : (Arithmetic.wrapping bits).holds den = true) {outcome : Except ArithmeticError Fraction}
    (h : tryOfRatio (.wrapping bits) num den = .ok outcome) :
    orZero outcome = ⟨num, den⟩ ↔ 0 < den ∧ Int.gcd num den = 1 := by
  by_cases hzero : den = 0
  · subst hzero
    rw [tryOfRatio_zero] at h
    cases h
    simp [orZero, zero, ofInt]
  · rw [← reduce_eq_self_iff hA hnum hden hzero]
    rw [tryOfRatio_of_ne _ hzero] at h
    rcases map_eq_ok.mp h with ⟨a, ha, rfl⟩
    rw [ha, Except.ok.injEq]
    rfl

/-! ## Stored fractions -/

/-- Pairs whose products over the common denominator agree are equal. -/
theorem eq_of_products (hunchecked : ∀ bits, A ≠ .checked bits)
    (h : b.num * a.den ≡ a.num * b.den [ZMOD A.modulus]) : Fraction.eq A b a = .ok true := by
  rcases A.exists_store hunchecked (a.num * b.den) with ⟨product, hproduct⟩
  have hleft : A.mul b.num a.den = .ok product := (A.store_congr h).trans hproduct
  have hright : A.mul a.num b.den = .ok product := hproduct
  simp [Fraction.eq, cross, hleft, hright, bind, Except.bind, pure, Except.pure]

/-- Without checks, a fraction is found equal to itself even if the products wrap. -/
theorem eq_self (hunchecked : ∀ bits, A ≠ .checked bits) (a : Fraction) : Fraction.eq A a a = .ok true :=
  eq_of_products hunchecked rfl

/-- A pair whose sign has moved is equal to the pair that it comes from. -/
theorem eq_of_signMoved (hunchecked : ∀ bits, A ≠ .checked bits)
    (h : SignMoved A a.num a.den (b.num, b.den)) : Fraction.eq A b a = .ok true := by
  refine eq_of_products hunchecked ?_
  rcases h.same_sign with ⟨hnum, hden⟩ | ⟨hnum, hden⟩
  · rw [show b.num = a.num from hnum, show b.den = a.den from hden]
  · calc b.num * a.den ≡ -a.num * a.den [ZMOD A.modulus] := hnum.mul_right _
      _ = a.num * -a.den := by ring
      _ ≡ a.num * b.den [ZMOD A.modulus] := (hden.mul_left _).symm

/-- A stored fraction is reduced to one that is equal to it, and to itself if its denominator is positive. -/
theorem Proper.reread (hA : (Arithmetic.wrapping bits).holds 1 = true)
    (ha : Proper (.wrapping bits) a) :
    ∃ b, reduce (.wrapping bits) a.num a.den = .ok b ∧
      Fraction.eq (.wrapping bits) b a = .ok true ∧ (0 < a.den → b = a) := by
  by_cases hzero : a.num = 0
  · obtain rfl := ha.eq_zero hzero
    refine ⟨Fraction.zero, reduce_zero _ one_pos, ?_, fun _ => rfl⟩
    simp [Fraction.eq, cross, Arithmetic.mul, bind, Except.bind, pure, Except.pure]
  · cases hreduce : reduce (.wrapping bits) a.num a.den with
    | error fault =>
        rcases reduce_wrapping_fault hA ha.num_held ha.den_held ha.den_ne_zero hreduce with
          ⟨hnum, hden, -⟩
        have hhalf := (Arithmetic.holds_wrapping_iff.mp hA).2
        have hcoprime := ha.coprime
        rw [hnum, hden, Int.gcd_self] at hcoprime
        omega
    | ok b =>
        have hmoved := (safe_reduce_coprime hA ha.num_held ha.den_held hzero ha.coprime).of_eq_ok hreduce
        refine ⟨b, rfl, eq_of_signMoved (Arithmetic.wrapping_unchecked bits) hmoved, fun hpos => ?_⟩
        rw [reduce_of_coprime hA hpos ha.coprime] at hreduce
        exact (Except.ok.inj hreduce).symm

/-- Without checks a stored fraction can be reduced again, and the result is equal to it. -/
theorem Proper.exists_reduce (hA : A.holds 1 = true) (hunchecked : ∀ bits, A ≠ .checked bits)
    (ha : Proper A a) : ∃ b, reduce A a.num a.den = .ok b ∧ Fraction.eq A b a = .ok true := by
  cases A with
  | exact =>
      by_cases hzero : a.num = 0
      · obtain rfl := ha.eq_zero hzero
        exact ⟨Fraction.zero, reduce_zero _ one_pos, rfl⟩
      · have hreduce : reduce .exact a.num a.den = .ok (ofRat (a.num / a.den)) :=
          reduce_exact ha.den_ne_zero
        have hmoved := (safe_reduce_coprime hA rfl rfl hzero ha.coprime).of_eq_ok hreduce
        exact ⟨_, hreduce, eq_of_signMoved hunchecked hmoved⟩
  | wrapping bits =>
      rcases ha.reread hA with ⟨b, hreduce, hequal, -⟩
      exact ⟨b, hreduce, hequal⟩
  | checked bits => exact absurd rfl (hunchecked bits)

/-- Without checks a division by one yields a fraction that is equal to the dividend. -/
theorem Proper.exists_div_one (hA : A.holds 1 = true) (hunchecked : ∀ bits, A ≠ .checked bits)
    (ha : Proper A a) : ∃ b, div A a Fraction.one = .ok b ∧ Fraction.eq A b a = .ok true := by
  have hnum : A.mul a.num Fraction.one.den = .ok a.num := A.mul_one_right hA ha.num_held
  have hden : A.mul a.den Fraction.one.num = .ok a.den := A.mul_one_right hA ha.den_held
  rcases ha.exists_reduce hA hunchecked with ⟨b, hreduce, hequal⟩
  refine ⟨b, ?_, hequal⟩
  rw [div_eq A a isZero_one]
  simp only [hnum, hden, bind, Except.bind]
  rw [ofRatio_of_ne A ha.den_ne_zero, hreduce]

end Fraction
end ExactSimplex
