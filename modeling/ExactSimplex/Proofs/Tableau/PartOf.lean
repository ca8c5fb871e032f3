import ExactSimplex.Proofs.Persistence
import ExactSimplex.Tableau.Canonical
import ExactSimplex.Tableau.Pivot

/-!
# Tableaux whose data go on

Unchecked data may end before the last row of their tableau, or go on after it.  A tableau is part of another
one of the same sizes if that stores all that it stores, in the same places.  Tests, searches and pivots that
stay within the smaller tableau do the same in the larger one, and a pivot leaves it a part.

Main results:

- Theorem {lit}`Tableau.PartOf.setRow`: replacing the same row in both.
- Theorems {lit}`Tableau.persists_isCanonical`, {lit}`Tableau.persists_basisDefect` and
  {lit}`Tableau.persists_startingBasis`: the tests and the search for a basis.
- Theorem {lit}`Tableau.persists_pivot`: a pivot.
-/

namespace ExactSimplex
namespace Tableau

open Calc

/-- The second tableau has the sizes of the first and stores all that it stores. -/
structure PartOf (T U : Tableau) : Prop where
  columns : U.columns = T.columns
  constraints : U.constraints = T.constraints
  entries : ∀ (k : ℕ) (a : Fraction), T.entries[k]? = some a → U.entries[k]? = some a

variable {A : Arithmetic} {T U : Tableau}

namespace PartOf

/-- Both tableaux have the same width. -/
theorem width (h : T.PartOf U) : U.width = T.width := by
  rw [Tableau.width, h.columns]
  rfl

/-- The second tableau has at least as much data. -/
theorem size_le (h : T.PartOf U) : T.entries.size ≤ U.entries.size := by
  by_contra hlt
  have hstored := h.entries U.entries.size _ (Array.getElem?_eq_getElem (by omega))
  rw [Array.getElem?_eq_none (Nat.le_refl _)] at hstored
  cases hstored

/-- A stretch that the first tableau stores is the same in both. -/
theorem extract (h : T.PartOf U) (start : ℕ) {stop : ℕ} (hstop : stop ≤ T.entries.size) :
    U.entries.extract start stop = T.entries.extract start stop := by
  have hsize := h.size_le
  apply Array.ext_getElem?
  intro k
  rw [Array.getElem?_extract, Array.getElem?_extract, Nat.min_eq_left hstop,
    Nat.min_eq_left (hstop.trans hsize)]
  split
  · exact (h.entries _ _ (Array.getElem?_eq_getElem (by omega))).trans
      (Array.getElem?_eq_getElem (by omega)).symm
  · rfl

/-- The same entries in the same row of both tableaux. -/
theorem setRow (h : T.PartOf U) (i : ℕ) (entries : List Fraction) :
    (T.setRow i entries).PartOf (U.setRow i entries) := by
  refine ⟨h.columns, h.constraints, fun k a hk => ?_⟩
  rw [Tableau.setRow, Array.getElem?_mapIdx] at hk ⊢
  rcases Option.map_eq_some_iff.mp hk with ⟨old, hold, ha⟩
  rw [h.entries k old hold, h.width]
  exact congrArg some ha

end PartOf

variable (h : T.PartOf U)

include h

/-! ## Access -/

/-- An entry of the smaller tableau is one of the larger. -/
@[gcongr]
theorem persists_get (i j : ℕ) : Persists Eq (T.get i j) (U.get i j) := by
  unfold Tableau.get
  rw [h.width]
  cases hentry : T.entries[i * T.width + j]? with
  | none => trivial
  | some a => exact ⟨a, by rw [h.entries _ a hentry]; rfl, rfl⟩

@[gcongr]
theorem persists_rhs (i : ℕ) : Persists Eq (T.rhs i) (U.rhs i) :=
  persists_get h i 0

@[gcongr]
theorem persists_reducedCost (j : ℕ) : Persists Eq (T.reducedCost j) (U.reducedCost j) :=
  persists_get h 0 j

@[gcongr]
theorem persists_row (i : ℕ) : Persists Eq (T.row i) (U.row i) := by
  unfold Tableau.row
  rw [h.width]
  by_cases hend : (i + 1) * T.width ≤ T.entries.size
  · have hend' : (i + 1) * T.width ≤ U.entries.size := hend.trans h.size_le
    rw [if_pos hend, if_pos hend', h.extract _ hend]
  · rw [if_neg hend]
    trivial

/-- Both tableaux show the same objective value. -/
@[gcongr]
theorem persists_objectiveValue : Persists Eq (T.objectiveValue A) (U.objectiveValue A) := by
  unfold objectiveValue
  gcongr

/-- The placement of right-hand sides, by induction on the list of columns. -/
@[gcongr]
theorem persists_placeBasic (row : ℕ) (columns : List ℕ) (values : List Fraction) :
    Persists Eq (T.placeBasic row columns values) (U.placeBasic row columns values) := by
  induction columns generalizing row values with
  | nil => rfl
  | cons column rest ih =>
      unfold placeBasic
      gcongr
      exact ih (row + 1) _

/-- Both tableaux show the same basic solution. -/
@[gcongr]
theorem persists_basicSolution (B : Basis) : Persists Eq (T.basicSolution B) (U.basicSolution B) := by
  unfold basicSolution
  rw [h.columns]
  gcongr

/-! ## Bases -/

/-- Both tableaux give the test of an entry the same answer. -/
@[gcongr]
theorem persists_isUnitEntry (column unit i : ℕ) :
    Persists Eq (isUnitEntry A T column unit i) (isUnitEntry A U column unit i) := by
  unfold isUnitEntry
  gcongr

@[gcongr]
theorem persists_isUnitColumn (column unit : ℕ) :
    Persists Eq (isUnitColumn A T column unit) (isUnitColumn A U column unit) := by
  unfold isUnitColumn
  rw [h.constraints]
  gcongr

/-- The tests of the listed columns, by induction on the list. -/
@[gcongr]
theorem persists_areUnitColumns (row : ℕ) (columns : List ℕ) :
    Persists Eq (areUnitColumns A T row columns) (areUnitColumns A U row columns) := by
  induction columns generalizing row with
  | nil => rfl
  | cons column rest ih =>
      unfold areUnitColumns
      gcongr
      exact ih (row + 1)

@[gcongr]
theorem persists_isCanonical (B : Basis) : Persists Eq (isCanonical A T B) (isCanonical A U B) := by
  unfold isCanonical
  rw [h.constraints]
  gcongr

/-- Both tableaux find the same defect of a basis. -/
@[gcongr]
theorem persists_basisDefect (B : Basis) : Persists Eq (basisDefect A T B) (basisDefect A U B) := by
  unfold basisDefect
  rw [h.constraints, h.columns]
  gcongr
  cases entryDefect T.columns [] B.columns with
  | none =>
      dsimp only
      gcongr
  | some defect => rfl

/-- The search for the single one of a column, by induction on the number of rows that are left. -/
@[gcongr]
theorem persists_unitRowFrom (column row count : ℕ) (found : Option ℕ) :
    Persists Eq (unitRowFrom A T column row count found) (unitRowFrom A U column row count found) := by
  induction count generalizing row found with
  | zero => rfl
  | succ count ih =>
      unfold unitRowFrom
      gcongr
      · exact ih (row + 1) found
      · exact ih (row + 1) (some row)

/-- Both tableaux find the same row for a column. -/
@[gcongr]
theorem persists_unitRow (column : ℕ) : Persists Eq (unitRow A T column) (unitRow A U column) := by
  unfold unitRow
  rw [h.constraints]
  gcongr

/-- The columns claim their rows one after the other, by induction on their number. -/
@[gcongr]
theorem persists_claimRows (column count : ℕ) (slots : List (Option ℕ)) :
    Persists Eq (claimRows A T column count slots) (claimRows A U column count slots) := by
  induction count generalizing column slots with
  | zero => rfl
  | succ count ih =>
      unfold claimRows
      gcongr with cost row
      · cases row with
        | none => exact ih (column + 1) slots
        | some row => exact ih (column + 1) (claim slots row column)
      · exact ih (column + 1) slots

/-- Both tableaux have the same identity to start from. -/
@[gcongr]
theorem persists_startingBasis : Persists Eq (startingBasis A T) (startingBasis A U) := by
  unfold startingBasis
  rw [h.constraints, h.columns]
  gcongr

/-! ## Pivots -/

/-- Scaling a row leaves one tableau a part of the other. -/
theorem persists_scaleRow (t : ℕ) (element : Fraction) :
    Persists PartOf (scaleRow A T t element) (scaleRow A U t element) := by
  refine (persists_row h t).bind_same fun entries => ?_
  refine (Persists.refl _).bind_same fun scaled => ?_
  exact .pure (h.setRow t scaled)

/-- Eliminating from a row leaves one tableau a part of the other. -/
theorem persists_eliminateRow (column t : ℕ) (scaled : List Fraction) (i : ℕ) :
    Persists PartOf (eliminateRow A T column t scaled i) (eliminateRow A U column t scaled i) := by
  refine (persists_get h i column).bind_same fun factor => ?_
  split
  · exact .pure h
  · refine (persists_row h i).bind_same fun entries => ?_
    refine (Persists.refl _).bind_same fun reduced => ?_
    exact .pure (h.setRow i reduced)

/-- The eliminations of a range of rows, by induction on their number. -/
theorem persists_eliminateRows (column t : ℕ) (scaled : List Fraction) (i count : ℕ) :
    Persists PartOf (eliminateRows A column t scaled i count T)
      (eliminateRows A column t scaled i count U) := by
  induction count generalizing i T U with
  | zero => exact .pure h
  | succ count ih => exact (persists_eliminateRow h column t scaled i).bind fun T' U' h' => ih h' (i + 1)

/-- A pivot leaves one tableau a part of the other. -/
theorem persists_pivot (column t : ℕ) (e : Elimination) :
    Persists PartOf (pivot A T column t e) (pivot A U column t e) := by
  refine (persists_get h t column).bind_same fun element => ?_
  refine (persists_scaleRow h t element).bind fun T' U' h' => ?_
  refine (persists_row h' t).bind_same fun scaled => ?_
  cases e with
  | all =>
      dsimp only
      rw [h'.constraints]
      exact persists_eliminateRows h' column t scaled 0 (T'.constraints + 1)
  | row i => exact persists_eliminateRow h' column t scaled i

end Tableau
end ExactSimplex
