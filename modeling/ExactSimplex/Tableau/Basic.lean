import ExactSimplex.Basis
import ExactSimplex.Fraction.Basic
import ExactSimplex.SolveError

/-!
# Tableaux

A tableau of {lit}`n` columns and {lit}`m` constraints stores the fractions of rows {lit}`0..m` and
columns {lit}`0..n` row by row.  Row 0 is the objective row: the negated objective value, then the
reduced costs.  Every other row is a constraint: the right-hand side, then the coefficients.

A tableau is well shaped if it stores exactly its rows.  Data that were not checked against their
sizes can also be held; an access beyond them is a fault.

Main results:

- Theorem {lit}`Tableau.get_of_shaped`: well shaped tableaux have every entry of their rows.
- Theorem {lit}`Tableau.size_setRow`: replacing a row keeps the amount of data.
- Theorems {lit}`Tableau.get_setRow_of_ne` and {lit}`Tableau.get_setRow_self`: replacing a row changes
  the entries of that row alone, and puts the given ones there.
-/

namespace ExactSimplex

/-- Rows of fractions, row 0 holding the objective. -/
structure Tableau where
  /-- Number of variables. -/
  columns : Nat
  /-- Number of constraint rows. -/
  constraints : Nat
  /-- The entries row by row, each row starting with column 0. -/
  entries : Array Fraction
  deriving Repr, DecidableEq

namespace Tableau

/-- The number of entries of a row. -/
def width (T : Tableau) : Nat := T.columns + 1

/-- The data are exactly the rows of the tableau. -/
def Shaped (T : Tableau) : Prop := T.entries.size = (T.constraints + 1) * T.width

instance (T : Tableau) : Decidable T.Shaped := inferInstanceAs (Decidable (_ = _))

/-! ## Construction -/

/-- A tableau of `rows` rows and `cols` columns, right-hand sides included, from its entries row by
row. -/
def ofEntries (rows cols : Nat) (entries : List Fraction) : Except SolveError Tableau :=
  if rows = 0 ∨ cols = 0 then .error .empty
  else if rows * cols = entries.length then .ok ⟨cols - 1, rows - 1, entries.toArray⟩
  else .error (.shape rows cols entries.length)

/-- A tableau from its rows, which must agree with the first row in length. -/
def ofRows (rows : List (List Fraction)) : Except SolveError Tableau :=
  let cols := (rows.head?.map List.length).getD 0
  match rows.findIdx? fun row => row.length != cols with
  | some ragged => .error (.raggedRow ragged cols ((rows[ragged]?.map List.length).getD 0))
  | none => ofEntries rows.length cols rows.flatten

/-- The constraint rows of `A x = b`, right-hand side first, where every row has as many
coefficients as the objective. -/
def constraintRows (columns : Nat) :
    List (List Fraction) → List Fraction → Except SolveError (List (List Fraction))
  | row :: rows, rhs :: rest =>
      if row.length = columns then
        (constraintRows columns rows rest).map fun tail => (rhs :: row) :: tail
      else .error (.dimension .constraintRow columns row.length)
  | _, _ => .ok []

/-- The tableau of the program "minimize `c x` subject to `A x = b`". -/
def ofStandardForm (A : List (List Fraction)) (b c : List Fraction) : Except SolveError Tableau :=
  if A.length = b.length then do
    let rows ← constraintRows c.length A b
    ofRows ((Fraction.zero :: c) :: rows)
  else .error (.dimension .rightHandSide A.length b.length)

/-! ## Access -/

/-- The entry of a row and a column, looked up in the row-by-row data. -/
def get (T : Tableau) (row column : Nat) : Calc Fraction :=
  Calc.fetch T.entries[row * T.width + column]?

/-- The right-hand side of a row. -/
def rhs (T : Tableau) (row : Nat) : Calc Fraction := T.get row 0

/-- The reduced cost of a column. -/
def reducedCost (T : Tableau) (column : Nat) : Calc Fraction := T.get 0 column

/-- All entries of a row. -/
def row (T : Tableau) (i : Nat) : Calc (List Fraction) :=
  if (i + 1) * T.width ≤ T.entries.size then
    .ok (T.entries.extract (i * T.width) ((i + 1) * T.width)).toList
  else .error .outOfRange

/-- The data cut into rows; unchecked data may leave a shorter last piece. -/
def rows (T : Tableau) : List (List Fraction) :=
  (List.range ((T.entries.size + T.columns) / T.width)).map fun i =>
    (T.entries.extract (i * T.width) ((i + 1) * T.width)).toList

/-- The same tableau with new entries in a row, as far as they are given. -/
def setRow (T : Tableau) (i : Nat) (entries : List Fraction) : Tableau :=
  { T with entries := T.entries.mapIdx fun k old =>
      if k / T.width = i then entries[k % T.width]?.getD old else old }

/-- The objective value: the negated entry of row 0 and column 0. -/
def objectiveValue (A : Arithmetic) (T : Tableau) : Calc Fraction := do
  let corner ← T.get 0 0
  Fraction.neg A corner

/-- Puts the right-hand side of the first row into the place of the first basic column, and so on
down the rows. -/
def placeBasic (T : Tableau) : (row : Nat) → List Nat → List Fraction → Calc (List Fraction)
  | _, [], values => .ok values
  | row, column :: rest, values => do
      let value ← T.rhs row
      if column = 0 ∨ values.length < column then .error .outOfRange
      else placeBasic T (row + 1) rest (values.set (column - 1) value)

/-- The values of all variables: right-hand sides for the basic ones, zero for the others. -/
def basicSolution (T : Tableau) (B : Basis) : Calc (List Fraction) :=
  T.placeBasic 1 B.columns (List.replicate T.columns Fraction.zero)

/-- Equality of fractions pair by pair. -/
def sameEntries (A : Arithmetic) : List Fraction → List Fraction → Calc Bool
  | [], [] => pure true
  | a :: as, b :: bs => do
      if ← Fraction.eq A a b then sameEntries A as bs else pure false
  | _, _ => pure false

/-- Equality of sizes and of all values. -/
def same (A : Arithmetic) (T U : Tableau) : Calc Bool :=
  if T.columns = U.columns ∧ T.constraints = U.constraints then
    sameEntries A T.entries.toList U.entries.toList
  else pure false

/-! ## First facts -/

@[simp]
theorem width_setRow (T : Tableau) (i : Nat) (entries : List Fraction) :
    (T.setRow i entries).width = T.width :=
  rfl

@[simp]
theorem columns_setRow (T : Tableau) (i : Nat) (entries : List Fraction) :
    (T.setRow i entries).columns = T.columns :=
  rfl

@[simp]
theorem constraints_setRow (T : Tableau) (i : Nat) (entries : List Fraction) :
    (T.setRow i entries).constraints = T.constraints :=
  rfl

/-- Replacing a row keeps the amount of data. -/
@[simp]
theorem size_setRow (T : Tableau) (i : Nat) (entries : List Fraction) :
    (T.setRow i entries).entries.size = T.entries.size := by
  simp [setRow]

/-- Replacing a row of a well shaped tableau leaves it well shaped. -/
theorem shaped_setRow {T : Tableau} (h : T.Shaped) (i : Nat) (entries : List Fraction) :
    (T.setRow i entries).Shaped := by
  simpa [Shaped] using h

/-- The place of an entry lies within the data of its row. -/
theorem index_lt {rows width row column : Nat} (hrow : row < rows) (hcolumn : column < width) :
    row * width + column < rows * width :=
  calc row * width + column < row * width + width := by omega
    _ = (row + 1) * width := by rw [Nat.succ_mul]
    _ ≤ rows * width := Nat.mul_le_mul_right width hrow

/-- The row and the column of an entry are read off its place in the data. -/
theorem place_div_mod (row : Nat) {width column : Nat} (hcolumn : column < width) :
    (row * width + column) / width = row ∧ (row * width + column) % width = column := by
  have hpos : 0 < width := by omega
  constructor
  · rw [Nat.mul_comm, Nat.mul_add_div hpos, Nat.div_eq_of_lt hcolumn, Nat.add_zero]
  · rw [Nat.mul_comm, Nat.mul_add_mod, Nat.mod_eq_of_lt hcolumn]

/-- What {lit}`get` finds after a row was replaced, in terms of what was there before. -/
theorem get_setRow {T : Tableau} {row column : Nat} (i : Nat) (entries : List Fraction)
    (hcolumn : column < T.width) :
    (T.setRow i entries).get row column =
      (T.get row column).map fun old => if row = i then entries[column]?.getD old else old := by
  obtain ⟨hrow, hmod⟩ := place_div_mod row hcolumn
  unfold get
  rw [width_setRow, setRow, Array.getElem?_mapIdx]
  cases T.entries[row * T.width + column]? <;> simp [Calc.fetch, Except.map, hrow, hmod]

/-- The other rows keep their entries. -/
theorem get_setRow_of_ne {T : Tableau} {i row column : Nat} (entries : List Fraction)
    (hcolumn : column < T.width) (h : row ≠ i) :
    (T.setRow i entries).get row column = T.get row column := by
  rw [get_setRow i entries hcolumn]
  cases T.get row column <;> simp [Except.map, h]

/-- The replaced row has the given entries, and keeps the old ones beyond them. -/
theorem get_setRow_self {T : Tableau} {i column : Nat} {old : Fraction} (entries : List Fraction)
    (hcolumn : column < T.width) (h : T.get i column = .ok old) :
    (T.setRow i entries).get i column = .ok (entries[column]?.getD old) := by
  rw [get_setRow i entries hcolumn, h]
  simp [Except.map]

end Tableau
end ExactSimplex
