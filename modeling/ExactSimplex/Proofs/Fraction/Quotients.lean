import ExactSimplex.Proofs.Fraction.Exact
import ExactSimplex.Proofs.Fraction.Words

/-!
# The quotient of a pair of words

A pair with a negative denominator is reduced by negating both of its integers, and the least word is its own
stored negation.  If both integers change, or none has to, the stored pair has the quotient of the given one.  If
exactly one of them is the least word, then only the other one changes, and the quotient changes its sign.  Dividing
out the greatest common divisor afterwards changes nothing more.

Main results:

- Theorem {lit}`Arithmetic.neg_word`: the negation of a word.
- Theorem {lit}`Fraction.exists_reduce_iff`: the pairs of words that can be reduced.
- Theorem {lit}`Fraction.toRat_reduce`: the quotient of a reduced pair.
- Theorem {lit}`Fraction.den_pos_iff_of_reduce`: the sign of its denominator.
-/

namespace ExactSimplex

open Calc

variable {bits : ℕ} {num den : ℤ} {a : Fraction}

/-- The least word is its own negation, and all other words have theirs. -/
theorem Arithmetic.neg_word (hA : (wrapping bits).holds 1 = true) {n : ℤ}
    (hn : (wrapping bits).holds n = true) :
    (wrapping bits).neg n = .ok (if n = -halfRange bits then n else -n) := by
  rcases (wrapping bits).exists_store (wrapping_unchecked bits) (-n) with ⟨s, hs⟩
  have hneg : (wrapping bits).neg n = .ok s := hs
  rcases ((wrapping bits).safe_neg hA hn).of_eq_ok hneg with ⟨hheld, -, hexact | ⟨hsame, hrange⟩⟩
  · rw [hneg, hexact]
    rw [hexact, holds_wrapping_iff] at hheld
    rw [if_neg (by omega)]
  · rw [hneg, hsame, if_pos (eq_least hn hrange)]

namespace Fraction

/-! ## Pairs that keep their quotient -/

/-- The sign of a pair of words can move: there is none, or the denominator has none, or both integers have a
negation. -/
def KeepsSign (bits : ℕ) (num den : ℤ) : Prop :=
  num = 0 ∨ 0 < den ∨
    (-Arithmetic.halfRange bits < den ∧ den < 0 ∧ num ≠ -Arithmetic.halfRange bits)

/-- The pair of two least words, whose greatest common divisor is no word. -/
def LeastPair (bits : ℕ) (num den : ℤ) : Prop :=
  num = -Arithmetic.halfRange bits ∧ den = -Arithmetic.halfRange bits

instance (bits : ℕ) (num den : ℤ) : Decidable (KeepsSign bits num den) :=
  inferInstanceAs (Decidable (_ ∨ _))

instance (bits : ℕ) (num den : ℤ) : Decidable (LeastPair bits num den) :=
  inferInstanceAs (Decidable (_ ∧ _))

/-! ## Reduction -/

/-- Dividing a common factor out of a pair keeps its quotient. -/
theorem toRat_div_div {g : ℤ} (hg : g ≠ 0) (hnum : g ∣ num) (hden : g ∣ den) :
    Fraction.toRat ⟨num / g, den / g⟩ = num / den := by
  rcases hnum with ⟨p, rfl⟩
  rcases hden with ⟨q, rfl⟩
  have hcast : (g : ℚ) ≠ 0 := by exact_mod_cast hg
  simp only [toRat, Int.mul_ediv_cancel_left _ hg, Int.cast_mul]
  exact (mul_div_mul_left (p : ℚ) (q : ℚ) hcast).symm

/-- What dividing out the greatest common divisor leaves of a pair whose sign has moved. -/
theorem quotient_of_reduce {A : Arithmetic} {num' den' : ℤ} (hmove : moveSign A num den = .ok (num', den'))
    (h : reduce A num den = .ok a) :
    a.toRat = num' / den' ∧ (0 < a.den ↔ num' = 0 ∨ 0 < den') := by
  rcases bind_eq_ok.mp h with ⟨pair, hmoved, h⟩
  obtain rfl := Except.ok.inj (hmove.symm.trans hmoved)
  dsimp only at h
  by_cases hzero : num' = 0
  · rw [if_pos hzero] at h
    obtain rfl := pure_eq_ok.mp h
    refine ⟨?_, iff_of_true one_pos (Or.inl hzero)⟩
    rw [toRat_zero, hzero, Int.cast_zero, zero_div]
  · rw [if_neg hzero] at h
    rcases bind_eq_ok.mp h with ⟨g, hg, h⟩
    obtain ⟨rfl, -⟩ := Arithmetic.demand_eq_ok hg
    obtain rfl := pure_eq_ok.mp h
    have hpos : (0 : ℤ) < Int.gcd num' den' := by
      exact_mod_cast Int.gcd_pos_of_ne_zero_left den' hzero
    have hdvd : (Int.gcd num' den' : ℤ) ∣ den' := Int.gcd_dvd_right num' den'
    refine ⟨toRat_div_div hpos.ne' (Int.gcd_dvd_left num' den') hdvd, ?_⟩
    have hquotient : Int.gcd num' den' * (den' / Int.gcd num' den') = den' := Int.mul_ediv_cancel' hdvd
    have hsign : 0 < den' / Int.gcd num' den' ↔ 0 < den' := by
      conv_rhs => rw [← hquotient]
      exact (mul_pos_iff_of_pos_left hpos).symm
    rw [hsign, or_iff_right hzero]

section Words

variable (hA : (Arithmetic.wrapping bits).holds 1 = true)
  (hnum : (Arithmetic.wrapping bits).holds num = true)
  (hden : (Arithmetic.wrapping bits).holds den = true)

include hA hnum hden

/-- The pair of words after its sign has moved. -/
theorem moveSign_word : moveSign (.wrapping bits) num den =
    .ok (if 0 ≤ den then (num, den) else
      (if num = -Arithmetic.halfRange bits then num else -num,
        if den = -Arithmetic.halfRange bits then den else -den)) := by
  unfold moveSign
  rw [Arithmetic.neg_word hA hnum, Arithmetic.neg_word hA hden]
  by_cases hneg : den < 0
  · rw [if_pos hneg, if_neg (not_le.mpr hneg)]
    rfl
  · rw [if_neg hneg, if_pos (not_lt.mp hneg)]
    rfl

/-- The quotient of a pair of words after its sign has moved. -/
theorem quotient_of_moveSign (hne : den ≠ 0) (hpair : ¬LeastPair bits num den) {num' den' : ℤ}
    (h : moveSign (.wrapping bits) num den = .ok (num', den')) :
    (KeepsSign bits num den → (num' / den' : ℚ) = num / den) ∧
      (¬KeepsSign bits num den → (num' / den' : ℚ) = -(num / den)) := by
  rw [moveSign_word hA hnum hden, Except.ok.injEq] at h
  have hrange := Arithmetic.holds_wrapping_iff.mp hden
  unfold LeastPair at hpair
  unfold KeepsSign
  by_cases hneg : 0 ≤ den
  · rw [if_pos hneg, Prod.mk.injEq] at h
    obtain ⟨rfl, rfl⟩ := h
    exact ⟨fun _ => rfl, fun hlost => by omega⟩
  · rw [if_neg hneg, Prod.mk.injEq] at h
    obtain ⟨rfl, rfl⟩ := h
    by_cases hnumLeast : num = -Arithmetic.halfRange bits
    · have hdenLeast : den ≠ -Arithmetic.halfRange bits := fun hdenLeast => hpair ⟨hnumLeast, hdenLeast⟩
      have hhalf := (Arithmetic.holds_wrapping_iff.mp hA).2
      rw [if_pos hnumLeast, if_neg hdenLeast, Int.cast_neg, div_neg]
      exact ⟨fun hkeeps => by omega, fun _ => rfl⟩
    · by_cases hdenLeast : den = -Arithmetic.halfRange bits
      · rw [if_neg hnumLeast, if_pos hdenLeast, Int.cast_neg, neg_div]
        refine ⟨fun hkeeps => ?_, fun _ => rfl⟩
        obtain rfl : num = 0 := by omega
        simp
      · rw [if_neg hnumLeast, if_neg hdenLeast, Int.cast_neg, Int.cast_neg, neg_div_neg_eq]
        exact ⟨fun _ => rfl, fun hlost => by omega⟩

/-- Every pair of words with a nonzero denominator can be reduced but that of two least words. -/
theorem exists_reduce_iff (hne : den ≠ 0) :
    (∃ a, reduce (.wrapping bits) num den = .ok a) ↔ ¬LeastPair bits num den := by
  constructor
  · rintro ⟨a, ha⟩ ⟨rfl, rfl⟩
    have hhalf := (Arithmetic.holds_wrapping_iff.mp hA).2
    have hrefused : (Arithmetic.wrapping bits).gcd (-Arithmetic.halfRange bits)
        (-Arithmetic.halfRange bits) = .error (.overflow (Arithmetic.halfRange bits)) := by
      have hgcd : (Int.gcd (-Arithmetic.halfRange bits) (-Arithmetic.halfRange bits) : ℤ) =
          Arithmetic.halfRange bits := by
        rw [Int.gcd_self]
        omega
      unfold Arithmetic.gcd Arithmetic.demand
      rw [hgcd, if_neg]
      rw [Arithmetic.holds_wrapping_iff]
      omega
    rcases bind_eq_ok.mp ha with ⟨pair, hmove, ha⟩
    rw [moveSign_word hA hnum hden, if_neg (by omega), if_pos rfl, Except.ok.injEq] at hmove
    subst hmove
    dsimp only at ha
    rw [if_neg hne, hrefused] at ha
    cases ha
  · intro hpair
    cases hreduce : reduce (.wrapping bits) num den with
    | ok a => exact ⟨a, rfl⟩
    | error fault =>
        rcases reduce_wrapping_fault hA hnum hden hne hreduce with ⟨hnumLeast, hdenLeast, -⟩
        exact absurd ⟨hnumLeast, hdenLeast⟩ hpair

/-- The stored pair has the quotient of the given one where the sign can move, and the negated quotient
elsewhere. -/
theorem toRat_reduce (hne : den ≠ 0) (h : reduce (.wrapping bits) num den = .ok a) :
    (KeepsSign bits num den → a.toRat = num / den) ∧
      (¬KeepsSign bits num den → a.toRat = -(num / den)) := by
  have hpair : ¬LeastPair bits num den := (exists_reduce_iff hA hnum hden hne).mp ⟨a, h⟩
  rcases bind_eq_ok.mp h with ⟨⟨num', den'⟩, hmove, -⟩
  rw [(quotient_of_reduce hmove h).1]
  exact quotient_of_moveSign hA hnum hden hne hpair hmove

/-- The stored denominator is positive unless the given one is the least word, zero apart. -/
theorem den_pos_iff_of_reduce (hne : den ≠ 0) (h : reduce (.wrapping bits) num den = .ok a) :
    0 < a.den ↔ ¬(den = -Arithmetic.halfRange bits ∧ num ≠ 0) := by
  have hrange := Arithmetic.holds_wrapping_iff.mp hden
  have hhalf := (Arithmetic.holds_wrapping_iff.mp hA).2
  rcases bind_eq_ok.mp h with ⟨⟨num', den'⟩, hmove, -⟩
  rw [(quotient_of_reduce hmove h).2]
  rw [moveSign_word hA hnum hden, Except.ok.injEq] at hmove
  split at hmove
  · cases hmove
    omega
  · obtain ⟨hnum', hden'⟩ := Prod.mk.inj hmove
    split at hnum' <;> split at hden' <;> omega

end Words
end Fraction
end ExactSimplex
