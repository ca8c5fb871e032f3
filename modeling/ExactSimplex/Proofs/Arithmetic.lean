import ExactSimplex.Proofs.Safety
import Mathlib.Data.Int.ModEq
import Mathlib.RingTheory.Coprime.Lemmas
import Mathlib.RingTheory.Int.Basic
import Mathlib.RingTheory.PrincipalIdealDomain

/-!
# Stored integers

Every arithmetic stores an integer that it can hold and that is congruent to the exact result.  That is
all that later proofs use of it, together with two facts about a modulus that is zero or a power of two:
integers that are held are equal if they are congruent, and coprime ones do not have the product zero.

Main results:

- Theorem {lit}`Arithmetic.safe_store`: what is stored for a result.
- Theorem {lit}`Arithmetic.eq_of_modEq`: congruent integers that are held are equal.
- Theorem {lit}`Arithmetic.safe_neg`: a negation is exact or leaves the least word as it is.
- Theorem {lit}`Arithmetic.safe_gcd`: a greatest common divisor is exact or refused.
- Theorem {lit}`Arithmetic.ne_zero_of_coprime`: the stored product of coprime integers is not zero.
-/

namespace ExactSimplex
namespace Arithmetic

/-- Results are stored up to multiples of the modulus. -/
def modulus : Arithmetic → ℤ
  | exact => 0
  | wrapping bits => 2 ^ bits
  | checked _ => 0

variable {A : Arithmetic} {a b n : ℤ}

/-! ## Ranges -/

/-- Half the range of a word as a power of two. -/
theorem halfRange_eq (bits : ℕ) : halfRange bits = 2 ^ (bits - 1) :=
  rfl

/-- Wrapping arithmetic never refuses a result. -/
@[simp]
theorem store_wrapping (bits : ℕ) (n : ℤ) :
    (wrapping bits).store n = .ok (n.bmod (2 ^ bits)) :=
  rfl

/-- Wrapping arithmetic is not checked arithmetic of any width. -/
theorem wrapping_unchecked (bits : ℕ) : ∀ width, wrapping bits ≠ checked width := by
  intro width h
  cases h

/-- Without checks every result is stored. -/
theorem exists_store (hunchecked : ∀ bits, A ≠ .checked bits) (n : ℤ) : ∃ s, A.store n = .ok s := by
  cases A with
  | exact => exact ⟨n, rfl⟩
  | wrapping bits => exact ⟨_, rfl⟩
  | checked bits => exact absurd rfl (hunchecked bits)

/-- The words of wrapping arithmetic, the least one included. -/
theorem holds_wrapping_iff {bits : ℕ} :
    (wrapping bits).holds n = true ↔ -halfRange bits ≤ n ∧ n < halfRange bits := by
  simp [holds]

/-- The words of checked arithmetic, without the least one. -/
theorem holds_checked_iff {bits : ℕ} :
    (checked bits).holds n = true ↔ -halfRange bits < n ∧ n < halfRange bits := by
  simp [holds]

/-- A word that holds one has a modulus of twice its half range. -/
theorem two_mul_halfRange {bits : ℕ} (hA : (wrapping bits).holds 1 = true) :
    2 * halfRange bits = 2 ^ bits := by
  have hhalf : 1 < halfRange bits := (holds_wrapping_iff.mp hA).2
  cases bits with
  | zero => exact absurd hhalf (by decide)
  | succ bits =>
      rw [halfRange_eq, Nat.add_sub_cancel, pow_succ, mul_comm]

/-- An arithmetic that holds one holds zero. -/
theorem holds_zero (hA : A.holds 1 = true) : A.holds 0 = true := by
  cases A with
  | exact => rfl
  | wrapping bits =>
      rw [holds_wrapping_iff] at hA ⊢
      omega
  | checked bits =>
      rw [holds_checked_iff] at hA ⊢
      omega

/-- An integer of the same sign and no larger magnitude is held too. -/
theorem holds_of_between (hA : A.holds 1 = true) (ha : A.holds a = true)
    (h : (0 ≤ b ∧ b ≤ a) ∨ (a ≤ b ∧ b ≤ 0)) : A.holds b = true := by
  cases A with
  | exact => rfl
  | wrapping bits =>
      rw [holds_wrapping_iff] at *
      omega
  | checked bits =>
      rw [holds_checked_iff] at *
      omega

/-- What is left after dividing by a positive divisor is held. -/
theorem holds_ediv (hA : A.holds 1 = true) (ha : A.holds a = true) {g : ℤ} (hg : 0 < g)
    (hdvd : g ∣ a) : A.holds (a / g) = true := by
  rcases hdvd with ⟨k, rfl⟩
  rw [Int.mul_ediv_cancel_left k hg.ne']
  apply holds_of_between hA ha
  rcases le_or_gt 0 k with hk | hk
  · exact Or.inl ⟨hk, by nlinarith⟩
  · exact Or.inr ⟨by nlinarith, hk.le⟩

/-- The negation of a nonnegative integer that is held is held. -/
theorem holds_neg_of_nonneg (hA : A.holds 1 = true) (ha : A.holds a = true) (h : 0 ≤ a) :
    A.holds (-a) = true := by
  cases A with
  | exact => rfl
  | wrapping bits =>
      rw [holds_wrapping_iff] at *
      omega
  | checked bits =>
      rw [holds_checked_iff] at *
      omega

/-- The complement of a negative integer that is held is held, that of the least word included. -/
theorem holds_neg_sub_one (hA : A.holds 1 = true) (ha : A.holds a = true) (h : a < 0) :
    A.holds (-a - 1) = true := by
  cases A with
  | exact => rfl
  | wrapping bits =>
      rw [holds_wrapping_iff] at *
      omega
  | checked bits =>
      rw [holds_checked_iff] at *
      omega

/-- A quotient by two or more is at most half of the dividend in magnitude, up to rounding. -/
theorem ediv_bounds {d : ℤ} (hd : 2 ≤ d) :
    (0 ≤ a → 0 ≤ a / d ∧ 2 * (a / d) ≤ a) ∧ (a < 0 → a / d < 0 ∧ a ≤ 2 * (a / d) + 1) := by
  have hquotient := Int.mul_ediv_add_emod a d
  have hnonneg := Int.emod_nonneg a (show d ≠ 0 by omega)
  have hlt := Int.emod_lt_of_pos a (show 0 < d by omega)
  constructor
  · intro ha
    have hq := Int.ediv_nonneg ha (show 0 ≤ d by omega)
    exact ⟨hq, by nlinarith⟩
  · intro ha
    have hq := Int.ediv_neg_of_neg_of_pos ha (show 0 < d by omega)
    exact ⟨hq, by nlinarith⟩

/-- The floor of a quotient is held unless the least word is divided by minus one. -/
theorem holds_fdiv (hA : A.holds 1 = true) (ha : A.holds a = true) (hb : b ≠ 0) (hb' : b ≠ -1) :
    A.holds (a.fdiv b) = true := by
  rcases lt_or_gt_of_ne hb with hneg | hpos
  · have hfloor : a.fdiv b = -a / -b := by
      rw [← Int.neg_fdiv_neg, Int.fdiv_eq_ediv_of_nonneg _ (show 0 ≤ -b by omega)]
    rw [hfloor]
    rcases ediv_bounds (a := -a) (show 2 ≤ -b by omega) with ⟨hnonneg, hnegative⟩
    rcases lt_trichotomy a 0 with hlt | rfl | hgt
    · have := hnonneg (by omega)
      exact holds_of_between hA (holds_neg_sub_one hA ha hlt) (Or.inl (by omega))
    · simpa using ha
    · have := hnegative (by omega)
      exact holds_of_between hA (holds_neg_of_nonneg hA ha hgt.le) (Or.inr (by omega))
  · rw [Int.fdiv_eq_ediv_of_nonneg _ hpos.le]
    rcases eq_or_ne b 1 with rfl | hne
    · rwa [Int.ediv_one]
    · rcases ediv_bounds (a := a) (show 2 ≤ b by omega) with ⟨hnonneg, hnegative⟩
      rcases lt_or_ge a 0 with hlt | hge
      · have := hnegative hlt
        exact holds_of_between hA ha (Or.inr (by omega))
      · have := hnonneg hge
        exact holds_of_between hA ha (Or.inl (by omega))

/-- Integers that are held and congruent to each other are equal. -/
theorem eq_of_modEq (hA : A.holds 1 = true) (ha : A.holds a = true) (hb : A.holds b = true)
    (h : a ≡ b [ZMOD A.modulus]) : a = b := by
  cases A with
  | exact => exact (Int.modEq_zero_iff).mp h
  | checked bits => exact (Int.modEq_zero_iff).mp h
  | wrapping bits =>
      have hmodulus := two_mul_halfRange hA
      rw [holds_wrapping_iff] at ha hb
      have hdvd : (2 : ℤ) ^ bits ∣ b - a := Int.modEq_iff_dvd.mp h
      rw [← hmodulus] at hdvd
      have := Int.eq_zero_of_abs_lt_dvd hdvd (by rw [abs_lt]; omega)
      omega

/-! ## Operations -/

/-- A result that is held is stored as it is. -/
theorem store_of_holds (hA : A.holds 1 = true) (hn : A.holds n = true) : A.store n = .ok n := by
  cases A with
  | exact => rfl
  | checked bits => exact if_pos hn
  | wrapping bits =>
      have hmodulus := two_mul_halfRange hA
      rw [holds_wrapping_iff] at hn
      rw [store_wrapping, Int.bmod_eq_of_le_mul_two] <;> push_cast <;> omega

/-- Results that agree up to multiples of the modulus are stored alike. -/
theorem store_congr (A : Arithmetic) {x y : ℤ} (h : x ≡ y [ZMOD A.modulus]) : A.store x = A.store y := by
  cases A with
  | exact => rw [Int.modEq_zero_iff.mp h]
  | checked bits => rw [Int.modEq_zero_iff.mp h]
  | wrapping bits =>
      have hmod : x % ((2 ^ bits : ℕ) : ℤ) = y % ((2 ^ bits : ℕ) : ℤ) := by
        push_cast
        exact h
      rw [store_wrapping, store_wrapping, Int.bmod_def, Int.bmod_def, hmod]

/-- A product with zero on the right is zero. -/
theorem mul_zero_right (hA : A.holds 1 = true) (n : ℤ) : A.mul n 0 = .ok 0 := by
  unfold mul
  rw [mul_zero]
  exact store_of_holds hA (holds_zero hA)

theorem mul_zero_left (hA : A.holds 1 = true) (n : ℤ) : A.mul 0 n = .ok 0 := by
  unfold mul
  rw [zero_mul]
  exact store_of_holds hA (holds_zero hA)

theorem mul_one_right (hA : A.holds 1 = true) (hn : A.holds n = true) : A.mul n 1 = .ok n := by
  unfold mul
  rw [mul_one]
  exact store_of_holds hA hn

theorem mul_one_left (hA : A.holds 1 = true) (hn : A.holds n = true) : A.mul 1 n = .ok n := by
  unfold mul
  rw [one_mul]
  exact store_of_holds hA hn

theorem sub_zero_right (hA : A.holds 1 = true) (hn : A.holds n = true) : A.sub n 0 = .ok n := by
  unfold sub
  rw [sub_zero]
  exact store_of_holds hA hn

theorem sub_same (hA : A.holds 1 = true) (n : ℤ) : A.sub n n = .ok 0 := by
  unfold sub
  rw [sub_self]
  exact store_of_holds hA (holds_zero hA)

/-- The stored integer is held and congruent to the exact result. -/
theorem safe_store (hA : A.holds 1 = true) (n : ℤ) :
    Calc.Safe A (A.store n) fun s => A.holds s = true ∧ s ≡ n [ZMOD A.modulus] := by
  cases A with
  | exact => exact ⟨rfl, rfl⟩
  | checked bits =>
      rw [show (checked bits).store n = (checked bits).demand n from rfl, demand]
      split
      · next hn => exact ⟨hn, rfl⟩
      · next hn => exact Bool.eq_false_iff.mpr hn
  | wrapping bits =>
      have hmodulus := two_mul_halfRange hA
      have hpos : 0 < 2 ^ bits := Nat.two_pow_pos bits
      have hle := Int.le_bmod (x := n) hpos
      have hlt := Int.bmod_lt (x := n) hpos
      push_cast at hle hlt
      rw [store_wrapping]
      refine ⟨holds_wrapping_iff.mpr (by omega), ?_⟩
      have hemod := Int.bmod_emod (x := n) (m := 2 ^ bits)
      push_cast at hemod
      exact hemod

/-- A negation is exact, or it leaves an integer as it is whose negation does not fit. -/
theorem safe_neg (hA : A.holds 1 = true) (ha : A.holds a = true) :
    Calc.Safe A (A.neg a) fun b => A.holds b = true ∧ b ≡ -a [ZMOD A.modulus] ∧
      (b = -a ∨ (b = a ∧ A.holds (-a) = false)) := by
  by_cases hneg : A.holds (-a) = true
  · unfold neg
    rw [store_of_holds hA hneg]
    exact ⟨hneg, rfl, Or.inl rfl⟩
  · refine (safe_store hA (-a)).imp fun b hb => ⟨hb.1, hb.2, Or.inr ⟨?_, Bool.eq_false_iff.mpr hneg⟩⟩
    cases A with
    | exact => exact absurd rfl hneg
    | checked bits =>
        rw [holds_checked_iff] at ha hneg
        omega
    | wrapping bits =>
        have hmodulus := two_mul_halfRange hA
        -- Only the least word has no negation, and it is congruent to its negation.
        have hleast : a = -halfRange bits := by
          rw [holds_wrapping_iff] at ha hneg
          omega
        refine eq_of_modEq hA hb.1 ha (hb.2.trans (Int.modEq_iff_dvd.mpr ?_))
        have hdifference : a - -a = -2 ^ bits := by
          rw [hleast]
          omega
        rw [hdifference]
        exact dvd_neg.mpr dvd_rfl

/-- The greatest common divisor is exact.  A word cannot hold it only if it is the negated least word. -/
theorem safe_gcd (hA : A.holds 1 = true) (ha : A.holds a = true) (ha0 : a ≠ 0) (b : ℤ) :
    Calc.Safe A (A.gcd a b) fun g => g = Int.gcd a b ∧ A.holds (Int.gcd a b) = true := by
  unfold gcd demand
  split
  · next hheld => exact ⟨rfl, hheld⟩
  · next hheld =>
      cases A with
      | exact => exact absurd rfl hheld
      | checked bits => exact Bool.eq_false_iff.mpr hheld
      | wrapping bits =>
          have hle : Int.gcd a b ≤ a.natAbs := Int.gcd_le_natAbs_left b ha0
          show (Int.gcd a b : ℤ) = halfRange bits
          rw [holds_wrapping_iff] at hA ha hheld
          omega

/-- What is stored for the product of coprime nonzero integers is not zero. -/
theorem ne_zero_of_coprime (hA : A.holds 1 = true) (ha : A.holds a = true) (hb : A.holds b = true)
    (ha0 : a ≠ 0) (hb0 : b ≠ 0) (hcoprime : Int.gcd a b = 1) (h : n ≡ a * b [ZMOD A.modulus]) :
    n ≠ 0 := by
  rintro rfl
  have hzero := holds_zero hA
  have hdvd : A.modulus ∣ a * b := by simpa using Int.modEq_iff_dvd.mp h
  cases A with
  | exact => exact (mul_ne_zero ha0 hb0) (zero_dvd_iff.mp hdvd)
  | checked bits => exact (mul_ne_zero ha0 hb0) (zero_dvd_iff.mp hdvd)
  | wrapping bits =>
      have hzeroOf : ∀ c, (wrapping bits).holds c = true → (2 : ℤ) ^ bits ∣ c → c = 0 := by
        intro c hc hdvd
        exact eq_of_modEq hA hc hzero (Int.modEq_zero_iff_dvd.mpr hdvd)
      have hab : IsCoprime a b := Int.isCoprime_iff_gcd_eq_one.mpr hcoprime
      -- At most one factor is even, so the power of two divides the other one.
      by_cases heven : (2 : ℤ) ∣ a
      · have hodd : IsCoprime ((2 : ℤ) ^ bits) b := by
          apply IsCoprime.pow_left
          exact hab.of_isCoprime_of_dvd_left heven
        exact ha0 (hzeroOf a ha (hodd.dvd_of_dvd_mul_right hdvd))
      · have hodd : IsCoprime ((2 : ℤ) ^ bits) a := by
          apply IsCoprime.pow_left
          exact (Irreducible.coprime_iff_not_dvd Int.prime_two.irreducible).mpr heven
        exact hb0 (hzeroOf b hb (hodd.dvd_of_dvd_mul_left hdvd))

end Arithmetic
end ExactSimplex
