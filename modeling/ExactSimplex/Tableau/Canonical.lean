import ExactSimplex.Tableau.Basic

/-!
# Canonical bases and starting bases

A basis is canonical for a tableau if it covers every constraint row and the column of each row is the
unit vector of that row, the objective row included.  A basis given by a caller is validated entry by
entry; without one, the columns are searched for an identity that is already present.

Main results:

- Theorem {lit}`Tableau.length_claim`: claiming a row keeps the number of rows.
-/

namespace ExactSimplex
namespace Tableau

variable (A : Arithmetic)

/-- Whether an entry is what the unit vector of row `unit` has in a row. -/
def isUnitEntry (T : Tableau) (column unit i : Nat) : Calc Bool := do
  let entry ← T.get i column
  if i = unit then Fraction.isOne A entry else pure entry.isZero

/-- Whether a column is the unit vector of a row, the objective row included. -/
def isUnitColumn (T : Tableau) (column unit : Nat) : Calc Bool :=
  allIndices (isUnitEntry A T column unit) 0 (T.constraints + 1)

/-- Whether the listed columns are the unit vectors of the rows from a row on. -/
def areUnitColumns (T : Tableau) : (row : Nat) → List Nat → Calc Bool
  | _, [] => pure true
  | row, column :: rest => do
      if ← isUnitColumn A T column row then areUnitColumns T (row + 1) rest else pure false

/-- Whether every basis column is the unit vector of its own row. -/
def isCanonical (T : Tableau) (B : Basis) : Calc Bool :=
  if B.size = T.constraints then areUnitColumns A T 1 B.columns else pure false

/-- The first defect among basis entries, given the entries before them. -/
def entryDefect (columns : Nat) (before : List Nat) : List Nat → Option BasisDefect
  | [] => none
  | column :: rest =>
      if column = 0 ∨ columns < column then some (.outOfRange column columns)
      else if before.contains column then some (.repeated column)
      else entryDefect columns (before ++ [column]) rest

/-- The first defect of a basis given for a tableau. -/
def basisDefect (T : Tableau) (B : Basis) : Calc (Option BasisDefect) :=
  if B.size = T.constraints then
    match entryDefect T.columns [] B.columns with
    | some defect => pure (some defect)
    | none => do
        if ← isCanonical A T B then pure none else pure (some .notIdentity)
  else pure (some (.wrongLength T.constraints B.size))

/-! ## Searching for an identity -/

/-- The row of the single one among `count` entries of a column from a row on, where all others are
zero; `found` is the row of a one met before. -/
def unitRowFrom (T : Tableau) (column : Nat) :
    (row count : Nat) → (found : Option Nat) → Calc (Option Nat)
  | _, 0, found => pure found
  | row, count + 1, found => do
      let entry ← T.get row column
      if entry.isZero then unitRowFrom T column (row + 1) count found
      else if (← Fraction.isOne A entry) && found.isNone then
        unitRowFrom T column (row + 1) count (some row)
      else pure none

/-- The row of the single one in a column whose other constraint entries are zero. -/
def unitRow (T : Tableau) (column : Nat) : Calc (Option Nat) :=
  unitRowFrom A T column 1 T.constraints none

/-- Lets a column claim a row that no column has claimed before. -/
def claim (slots : List (Option Nat)) (row column : Nat) : List (Option Nat) :=
  match slots[row - 1]? with
  | some none => slots.set (row - 1) (some column)
  | _ => slots

/-- Lets `count` columns from a column on claim the rows that they are unit vectors of. -/
def claimRows (T : Tableau) :
    (column count : Nat) → List (Option Nat) → Calc (List (Option Nat))
  | _, 0, slots => pure slots
  | column, count + 1, slots => do
      let cost ← T.reducedCost column
      if cost.isZero then
        match ← unitRow A T column with
        | some row => claimRows T (column + 1) count (claim slots row column)
        | none => claimRows T (column + 1) count slots
      else claimRows T (column + 1) count slots

/-- The entries of a list without gaps. -/
def allClaimed : List (Option Nat) → Option (List Nat)
  | [] => some []
  | none :: _ => none
  | some column :: rest => (allClaimed rest).map (column :: ·)

/-- The identity present in the tableau, with the first column wherever several are unit vectors of
the same row. -/
def startingBasis (T : Tableau) : Calc (Option Basis) := do
  let slots ← claimRows A T 1 T.columns (List.replicate T.constraints none)
  pure ((allClaimed slots).map Basis.mk)

/-! ## First facts -/

/-- Claiming a row keeps the number of rows. -/
@[simp]
theorem length_claim (slots : List (Option Nat)) (row column : Nat) :
    (claim slots row column).length = slots.length := by
  unfold claim
  split <;> simp

/-- If all rows are claimed, there is one column for each of them. -/
theorem allClaimed_length {slots : List (Option Nat)} {columns : List Nat}
    (h : allClaimed slots = some columns) : columns.length = slots.length := by
  induction slots generalizing columns with
  | nil => cases h; rfl
  | cons slot rest ih =>
      cases slot with
      | none => cases h
      | some column =>
          obtain ⟨tail, htail, rfl⟩ := Option.map_eq_some_iff.mp h
          simp [ih htail]

end Tableau
end ExactSimplex
