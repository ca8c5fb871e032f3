import ExactSimplex.Calc

/-!
# Bases

A basis lists, for every constraint row from row 1 on, the column of the basic variable of that row.
Row numbers start at one, because row 0 of a tableau is the objective row.

Main results:

- Theorem {lit}`Basis.inRow_succ`: row {lit}`i + 1` holds entry {lit}`i` of the list.
- Theorem {lit}`Basis.size_enter`: entering a column keeps the number of rows.
-/

namespace ExactSimplex

/-- The column of the basic variable of each constraint row, in row order. -/
structure Basis where
  columns : List Nat := []
  deriving Repr, DecidableEq

namespace Basis

/-- The number of rows that a basis covers. -/
def size (B : Basis) : Nat := B.columns.length

/-- The entry at a position counted from zero. -/
def entry (B : Basis) (index : Nat) : Calc Nat := Calc.fetch B.columns[index]?

/-- The basic variable of a row counted from one. -/
def inRow (B : Basis) (row : Nat) : Calc Nat :=
  if row = 0 then .error .outOfRange else B.entry (row - 1)

/-- Makes a column the basic variable of a row counted from one. -/
def enter (B : Basis) (row column : Nat) : Calc Basis :=
  if row = 0 ∨ B.size < row then .error .outOfRange
  else .ok ⟨B.columns.set (row - 1) column⟩

/-- Covers one more row. -/
def push (B : Basis) (column : Nat) : Basis := ⟨B.columns ++ [column]⟩

@[simp]
theorem size_push (B : Basis) (column : Nat) : (B.push column).size = B.size + 1 := by
  simp [push, size]

@[simp]
theorem inRow_zero (B : Basis) : B.inRow 0 = .error .outOfRange :=
  rfl

/-- Row `i + 1` holds entry `i` of the list. -/
theorem inRow_succ (B : Basis) (index : Nat) : B.inRow (index + 1) = B.entry index := by
  simp [inRow]

/-- An entry is found exactly where the list has one. -/
theorem entry_eq_ok_iff {B : Basis} {index column : Nat} :
    B.entry index = .ok column ↔ B.columns[index]? = some column :=
  Calc.fetch_eq_ok_iff

/-- Entering a column replaces one entry of the list. -/
theorem enter_succ {B : Basis} {index : Nat} (column : Nat) (h : index < B.size) :
    B.enter (index + 1) column = .ok ⟨B.columns.set index column⟩ := by
  simp [enter, Nat.not_lt.mpr h]

/-- Entering a column keeps the number of rows. -/
theorem size_enter {B B' : Basis} {row column : Nat} (h : B.enter row column = .ok B') :
    B'.size = B.size := by
  unfold enter at h
  split at h
  · cases h
  · cases h
    simp [size]

end Basis
end ExactSimplex
