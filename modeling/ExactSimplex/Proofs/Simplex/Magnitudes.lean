import ExactSimplex.Proofs.Simplex.Dual
import ExactSimplex.Proofs.Simplex.Primal
import ExactSimplex.Proofs.Simplex.Refinement
import ExactSimplex.Proofs.Tableau.Magnitudes

/-!
# Steps on small entries

The ratios of a tableau with entries of at most {lit}`x` in magnitude have integers of at most {lit}`x ^ 2`, so two
of them are compared by products of at most {lit}`x ^ 4`.  If twice this is less than half the range of a word, then
neither a ratio test nor a pivot forms an integer that does not fit.  Each of them is therefore the same in words,
in checked arithmetic and in exact arithmetic.

Main results:

- Theorems {lit}`Tableau.pivotRow_of_within` and {lit}`Tableau.dualColumn_of_within`: the ratio tests.
- Theorem {lit}`Tableau.steps_of_small`: the pivots and the choices of both methods on small entries.
-/

namespace ExactSimplex
namespace Tableau

open Calc Fraction

variable {T : Tableau} {x y : ℤ} {bits : ℕ} {A : Arithmetic} {a : Fraction} {best : Option (ℕ × Fraction)}

/-- The fraction of the best row or column so far is within `y`. -/
def BestWithin (y : ℤ) (best : Option (ℕ × Fraction)) : Prop :=
  ∀ i a, best = some (i, a) → a.Within y

theorem bestWithin_none : BestWithin y none := nofun

theorem bestWithin_some {i : ℕ} (ha : a.Within y) : BestWithin y (some (i, a)) := by
  rintro _ _ ⟨⟩
  exact ha

/-- An entry that is found is one of the data. -/
theorem within_of_get (hT : ∀ a ∈ T.entries, a.Within x) {i j : ℕ} (h : T.get i j = .ok a) : a.Within x :=
  hT a (Array.mem_of_getElem? (fetch_eq_ok_iff.mp h))

section Choices

variable (hA : (Arithmetic.checked bits).Refines A)

include hA

/-! ## The primal ratio test -/

/-- Ratios within the bound are compared as in checked arithmetic. -/
theorem leavesBefore_of_within (hy : y * y < Arithmetic.halfRange bits) (C : Basis) (row : ℕ)
    (ha : a.Within y) (hbest : BestWithin y best) :
    leavesBefore A C row a best = leavesBefore (.checked bits) C row a best := by
  rcases best with _ | ⟨least, bound⟩
  · rfl
  · have hbound := hbest least bound rfl
    simp only [leavesBefore]
    rw [(completes_lt ha hbound hy).eq_of_refines (refines_lt hA a bound),
      (completes_eq ha hbound hy).eq_of_refines (refines_eq hA a bound)]

section Tests

variable (hT : ∀ a ∈ T.entries, a.Within x) (hx : x * x * (x * x) < Arithmetic.halfRange bits)
  (hsquare : x * x < Arithmetic.halfRange bits)

include hT hx hsquare

/-- The ratio test, by induction on the number of rows that are left; the best ratio is within the square of the
bound. -/
theorem ratioTest_of_within (C : Basis) (column row count : ℕ) (hbest : BestWithin (x * x) best) :
    ratioTest A T C column row count best = ratioTest (.checked bits) T C column row count best := by
  induction count generalizing row best with
  | zero => rfl
  | succ count ih =>
      unfold ratioTest
      refine bind_congr fun entry hentry => ?_
      split
      · refine bind_congr fun bound hbound => ?_
        rcases completes_div (within_of_get hT hbound) (within_of_get hT hentry) hsquare with
          ⟨ratio, hratio, hwithin⟩
        rw [hratio, refines_div hA _ _ _ hratio]
        show leavesBefore A C row ratio best >>= _ = leavesBefore (.checked bits) C row ratio best >>= _
        rw [leavesBefore_of_within hA hx C row hwithin hbest]
        refine bind_congr fun passed _ => ?_
        split
        · exact ih (row + 1) (bestWithin_some hwithin)
        · exact ih (row + 1) hbest
      · exact ih (row + 1) hbest

/-- The same row leaves as in checked arithmetic. -/
theorem pivotRow_of_within (C : Basis) (column : ℕ) :
    T.pivotRow A C column = T.pivotRow (.checked bits) C column := by
  unfold pivotRow
  rw [ratioTest_of_within hA hT hx hsquare C column 1 T.constraints bestWithin_none]

/-! ## The dual ratio test -/

omit hT hsquare in
/-- Ratios of columns within the bound are compared as in checked arithmetic. -/
theorem entersBefore_of_within (ha : a.Within (x * x)) (hbest : BestWithin (x * x) best) :
    entersBefore A a best = entersBefore (.checked bits) a best := by
  rcases best with _ | ⟨least, bound⟩
  · rfl
  · exact (completes_lt ha (hbest least bound rfl) hx).eq_of_refines (refines_lt hA a bound)

/-- The dual ratio test, by induction on the number of columns that are left. -/
theorem dualRatioTest_of_within (row column count : ℕ) (hbest : BestWithin (x * x) best) :
    dualRatioTest A T row column count best = dualRatioTest (.checked bits) T row column count best := by
  induction count generalizing column best with
  | zero => rfl
  | succ count ih =>
      unfold dualRatioTest
      refine bind_congr fun entry hentry => ?_
      split
      · refine bind_congr fun cost hcost => ?_
        rcases completes_div (within_of_get hT hcost) (within_of_get hT hentry) hsquare with
          ⟨quotient, hquotient, hwithin⟩
        rcases completes_abs hwithin hsquare with ⟨ratio, hratio, hwithin⟩
        rw [hquotient, refines_div hA _ _ _ hquotient]
        show Fraction.abs A quotient >>= _ = Fraction.abs (.checked bits) quotient >>= _
        rw [hratio, refines_abs hA _ _ hratio]
        show entersBefore A ratio best >>= _ = entersBefore (.checked bits) ratio best >>= _
        rw [entersBefore_of_within hA hx hwithin hbest]
        refine bind_congr fun passed _ => ?_
        split
        · exact ih (column + 1) (bestWithin_some hwithin)
        · exact ih (column + 1) hbest
      · exact ih (column + 1) hbest

/-- The same column enters as in checked arithmetic. -/
theorem dualColumn_of_within (row : ℕ) : T.dualColumn A row = T.dualColumn (.checked bits) row := by
  unfold dualColumn
  rw [dualRatioTest_of_within hA hT hx hsquare row 1 T.columns bestWithin_none]

end Tests
end Choices

/-! ## All steps -/

/-- On a tableau of reduced entries of at most `x` in magnitude, where twice the fourth power of `x` fits into a
word, every pivot and every choice of the two methods is the one of exact arithmetic.  Checked arithmetic completes
them, so no integer that is formed on the way is as large as half the range of the word, and the integers of the new
tableau are at most twice the fourth power of `x` in magnitude. -/
theorem steps_of_small (hx : 1 ≤ x) (hbits : 2 * x ^ 4 ≤ 2 ^ (bits - 1) - 1) (hT : T.WellFormed)
    (hsmall : ∀ a ∈ T.entries, |a.num| ≤ x ∧ a.den ≤ x) :
    (∀ h ≤ T.columns, ∀ t ≤ T.constraints, ∀ e, (∀ i, e = .row i → i ≤ T.constraints) →
      ∃ U, T.pivot .exact h t e = .ok U ∧ T.pivot (.wrapping bits) h t e = .ok U ∧
        T.pivot (.checked bits) h t e = .ok U ∧
        ∀ a ∈ U.entries, |a.num| ≤ 2 * x ^ 4 ∧ |a.den| ≤ 2 * x ^ 4) ∧
    (∀ C h, T.pivotRow (.wrapping bits) C h = T.pivotRow .exact C h ∧
      T.pivotRow (.checked bits) C h = T.pivotRow .exact C h) ∧
    (∀ C : Basis, C.size = T.constraints → ∀ h ≤ T.columns, ∃ best, T.pivotRow .exact C h = .ok best) ∧
    (∀ t, T.dualColumn (.wrapping bits) t = T.dualColumn .exact t ∧
      T.dualColumn (.checked bits) t = T.dualColumn .exact t) ∧
    ∀ t ≤ T.constraints, ∃ best, T.dualColumn .exact t = .ok best := by
  have hhalf : 2 * x ^ 4 < Arithmetic.halfRange bits := Int.lt_of_le_sub_one hbits
  have hwithin : ∀ a ∈ T.entries, a.Within x := fun a ha =>
    ⟨(hsmall a ha).1, (hT.reduced a ha).den_pos, (hsmall a ha).2⟩
  have hsquare : x * x < Arithmetic.halfRange bits := by
    rw [← sq]
    exact (le_two_mul_pow hx).2.trans_lt hhalf
  have hfourth : x * x * (x * x) < Arithmetic.halfRange bits := by
    have hpower : x * x * (x * x) = x ^ 4 := by ring
    have hnonneg : 0 ≤ x ^ 4 := pow_nonneg (zero_le_one.trans hx) 4
    omega
  have hwrapping := Arithmetic.refines_wrapping bits
  have hexact := Arithmetic.refines_exact bits
  refine ⟨fun h hh t ht e he => ?_, fun C h => ?_, fun C hC h hh => ?_, fun t => ?_, fun t ht => ?_⟩
  · rcases (bounded_of_within hT.shaped hwithin).pivot hhalf hx hh ht e he with ⟨U, hU, hbounded⟩
    exact ⟨U, refines_pivot hexact T h t e U hU, refines_pivot hwrapping T h t e U hU, hU,
      fun a ha => ⟨(hbounded a ha).num_le, (hbounded a ha).abs_den_le⟩⟩
  · have hrow := pivotRow_of_within hexact hwithin hfourth hsquare C h
    exact ⟨(pivotRow_of_within hwrapping hwithin hfourth hsquare C h).trans hrow.symm, hrow.symm⟩
  · rcases hT.represents.pivotRow (hC ▸ C.represents) hh with ⟨best, hbest, -⟩
    exact ⟨best, hbest⟩
  · have hcolumn := dualColumn_of_within hexact hwithin hfourth hsquare t
    exact ⟨(dualColumn_of_within hwrapping hwithin hfourth hsquare t).trans hcolumn.symm, hcolumn.symm⟩
  · rcases hT.represents.dualColumn ht with ⟨best, hbest, -⟩
    exact ⟨best, hbest⟩

/-- A tableau with entries of at most ten in magnitude. -/
def smallEntries : Tableau where
  columns := 2
  constraints := 2
  entries := #[⟨0, 1⟩, ⟨-3, 1⟩, ⟨-7, 2⟩, ⟨9, 1⟩, ⟨10, 3⟩, ⟨-1, 10⟩, ⟨7, 9⟩, ⟨2, 7⟩, ⟨-5, 1⟩]

/-- In words of sixteen bits the tableau is pivoted as in exact arithmetic; the first row leaves for the first
column, and the second column enters for the second row. -/
theorem steps_of_small_sixteenBits :
    (∃ U, smallEntries.pivot .exact 1 1 .all = .ok U ∧ smallEntries.pivot (.wrapping 16) 1 1 .all = .ok U ∧
      ∀ a ∈ U.entries, |a.num| ≤ 20000 ∧ |a.den| ≤ 20000) ∧
    smallEntries.pivotRow (.wrapping 16) ⟨[1, 2]⟩ 1 = .ok (some 1) ∧
    smallEntries.dualColumn (.wrapping 16) 2 = .ok (some 2) := by
  rcases @steps_of_small smallEntries 10 16 (by decide) (by decide) (by decide) (by decide) with
    ⟨hpivots, hrows, -, hcolumns, -⟩
  refine ⟨?_, ?_, ?_⟩
  · rcases hpivots 1 (by decide) 1 (by decide) .all nofun with ⟨U, hexact, hwrapping, -, hbounds⟩
    exact ⟨U, hexact, hwrapping, hbounds⟩
  · rw [(hrows ⟨[1, 2]⟩ 1).1]
    decide +kernel
  · rw [(hcolumns 2).1]
    decide +kernel

end Tableau
end ExactSimplex
