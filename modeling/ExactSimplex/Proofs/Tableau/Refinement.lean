import ExactSimplex.Proofs.Fraction.Refinement
import ExactSimplex.Tableau.Canonical
import ExactSimplex.Tableau.Cut
import ExactSimplex.Tableau.Pivot

/-!
# Tableaux where no result is refused

Pivots, the tests for unit columns and cuts look up stored fractions, which does not depend on the
arithmetic, and compute with them.  They have the same result in every arithmetic in which the operations
on fractions do.

Main results:

- Theorem {lit}`Tableau.refines_pivot`: a pivot.
- Theorems {lit}`Tableau.refines_isCanonical`, {lit}`Tableau.refines_basisDefect` and
  {lit}`Tableau.refines_startingBasis`: the tests and the search for a basis.
- Theorem {lit}`Tableau.refines_addCut`: a cut.
-/

namespace ExactSimplex
namespace Tableau

open Calc

variable {A A' : Arithmetic}

/-- The objective values in two arithmetics. -/
@[gcongr]
theorem refines_objectiveValue (hA : A.Refines A') (T : Tableau) :
    Refines (T.objectiveValue A) (T.objectiveValue A') := by
  unfold objectiveValue
  gcongr

/-! ## Pivots -/

/-- The differences of two rows, by induction on the first row along the second one. -/
@[gcongr]
theorem refines_subtractMultiple (hA : A.Refines A') (factor : Fraction)
    (entries scaled : List Fraction) :
    Refines (subtractMultiple A factor entries scaled)
      (subtractMultiple A' factor entries scaled) := by
  induction entries generalizing scaled with
  | nil => rfl
  | cons entry entries ih =>
      cases scaled with
      | nil => rfl
      | cons first rest =>
          unfold subtractMultiple
          gcongr
          exact ih rest

/-- A scaled row in two arithmetics. -/
@[gcongr]
theorem refines_scaleRow (hA : A.Refines A') (T : Tableau) (t : ℕ) (element : Fraction) :
    Refines (scaleRow A T t element) (scaleRow A' T t element) := by
  unfold scaleRow
  gcongr

/-- An elimination from one row in two arithmetics. -/
@[gcongr]
theorem refines_eliminateRow (hA : A.Refines A') (T : Tableau) (h t : ℕ) (scaled : List Fraction)
    (i : ℕ) : Refines (eliminateRow A T h t scaled i) (eliminateRow A' T h t scaled i) := by
  unfold eliminateRow
  gcongr

/-- The eliminations of a range of rows, by induction on their number. -/
@[gcongr]
theorem refines_eliminateRows (hA : A.Refines A') (h t : ℕ) (scaled : List Fraction) (i count : ℕ)
    (T : Tableau) :
    Refines (eliminateRows A h t scaled i count T) (eliminateRows A' h t scaled i count T) := by
  induction count generalizing i T with
  | zero => rfl
  | succ count ih =>
      unfold eliminateRows
      gcongr with U
      exact ih (i + 1) U

/-- A pivot in two arithmetics. -/
@[gcongr]
theorem refines_pivot (hA : A.Refines A') (T : Tableau) (h t : ℕ) (e : Elimination) :
    Refines (pivot A T h t e) (pivot A' T h t e) := by
  unfold pivot
  gcongr with element U scaled
  cases e with
  | all => exact refines_eliminateRows hA h t scaled 0 (U.constraints + 1) U
  | row i => exact refines_eliminateRow hA U h t scaled i

/-! ## Bases -/

/-- The test of an entry in two arithmetics. -/
@[gcongr]
theorem refines_isUnitEntry (hA : A.Refines A') (T : Tableau) (column unit i : ℕ) :
    Refines (isUnitEntry A T column unit i) (isUnitEntry A' T column unit i) := by
  unfold isUnitEntry
  gcongr

@[gcongr]
theorem refines_isUnitColumn (hA : A.Refines A') (T : Tableau) (column unit : ℕ) :
    Refines (isUnitColumn A T column unit) (isUnitColumn A' T column unit) := by
  unfold isUnitColumn
  gcongr

/-- The tests of the listed columns, by induction on the list. -/
@[gcongr]
theorem refines_areUnitColumns (hA : A.Refines A') (T : Tableau) (row : ℕ) (columns : List ℕ) :
    Refines (areUnitColumns A T row columns) (areUnitColumns A' T row columns) := by
  induction columns generalizing row with
  | nil => rfl
  | cons column rest ih =>
      unfold areUnitColumns
      gcongr
      exact ih (row + 1)

/-- The test of a basis in two arithmetics. -/
@[gcongr]
theorem refines_isCanonical (hA : A.Refines A') (T : Tableau) (B : Basis) :
    Refines (isCanonical A T B) (isCanonical A' T B) := by
  unfold isCanonical
  gcongr

/-- The defect of a basis in two arithmetics. -/
@[gcongr]
theorem refines_basisDefect (hA : A.Refines A') (T : Tableau) (B : Basis) :
    Refines (basisDefect A T B) (basisDefect A' T B) := by
  unfold basisDefect
  gcongr
  cases entryDefect T.columns [] B.columns with
  | none =>
      dsimp only
      gcongr
  | some defect => rfl

/-- The search for the single one of a column, by induction on the number of rows that are left. -/
@[gcongr]
theorem refines_unitRowFrom (hA : A.Refines A') (T : Tableau) (column row count : ℕ)
    (found : Option ℕ) :
    Refines (unitRowFrom A T column row count found) (unitRowFrom A' T column row count found) := by
  induction count generalizing row found with
  | zero => rfl
  | succ count ih =>
      unfold unitRowFrom
      gcongr
      · exact ih (row + 1) found
      · exact ih (row + 1) (some row)

@[gcongr]
theorem refines_unitRow (hA : A.Refines A') (T : Tableau) (column : ℕ) :
    Refines (unitRow A T column) (unitRow A' T column) :=
  refines_unitRowFrom hA T column 1 T.constraints none

/-- The columns claim their rows one after the other, by induction on their number. -/
@[gcongr]
theorem refines_claimRows (hA : A.Refines A') (T : Tableau) (column count : ℕ)
    (slots : List (Option ℕ)) :
    Refines (claimRows A T column count slots) (claimRows A' T column count slots) := by
  induction count generalizing column slots with
  | zero => rfl
  | succ count ih =>
      unfold claimRows
      gcongr with cost row
      · cases row with
        | none => exact ih (column + 1) slots
        | some row => exact ih (column + 1) (claim slots row column)
      · exact ih (column + 1) slots

/-- The search for an identity in two arithmetics. -/
@[gcongr]
theorem refines_startingBasis (hA : A.Refines A') (T : Tableau) :
    Refines (startingBasis A T) (startingBasis A' T) := by
  unfold startingBasis
  gcongr

/-! ## Cuts -/

/-- The negated fractional parts of a row, by induction on the row. -/
@[gcongr]
theorem refines_cutEntries (hA : A.Refines A') (entries : List Fraction) :
    Refines (cutEntries A entries) (cutEntries A' entries) := by
  induction entries with
  | nil => rfl
  | cons entry rest ih =>
      unfold cutEntries
      gcongr

/-- A cut in two arithmetics. -/
@[gcongr]
theorem refines_addCut (hA : A.Refines A') (T : Tableau) (B : Basis) (source : ℕ) :
    Refines (addCut A T B source) (addCut A' T B source) := by
  unfold addCut
  gcongr

end Tableau
end ExactSimplex
