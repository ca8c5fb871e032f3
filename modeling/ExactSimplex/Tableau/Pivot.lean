import ExactSimplex.Tableau.Basic

/-!
# Pivots

A pivot on an entry scales its row so that the entry becomes one and subtracts multiples of the
scaled row from other rows, so that the entry's column vanishes there.

Main results:

- Theorem {lit}`Tableau.pivot_sizes`: a pivot keeps the sizes and the amount of data.
-/

namespace ExactSimplex

/-- The rows that a pivot eliminates the entering column from. -/
inductive Elimination where
  /-- Every row but the pivot row, the objective row included. -/
  | all
  /-- A single row. -/
  | row (index : Nat)
  deriving Repr, DecidableEq

namespace Tableau

variable (A : Arithmetic)

/-- A row minus a multiple of another, entry by entry, as far as both reach. -/
def subtractMultiple (factor : Fraction) : List Fraction → List Fraction → Calc (List Fraction)
  | entry :: entries, scaled :: rest => do
      let product ← Fraction.mul A factor scaled
      let difference ← Fraction.sub A entry product
      let tail ← subtractMultiple factor entries rest
      pure (difference :: tail)
  | _, _ => pure []

/-- Divides row `t` by a fraction. -/
def scaleRow (T : Tableau) (t : Nat) (element : Fraction) : Calc Tableau := do
  let entries ← T.row t
  let scaled ← entries.mapM fun entry => Fraction.div A entry element
  pure (T.setRow t scaled)

/-- Subtracts the multiple of the scaled row `t` that makes column `h` vanish in a row; a row where it
vanishes already, and row `t` itself, stay. -/
def eliminateRow (T : Tableau) (h t : Nat) (scaled : List Fraction) (i : Nat) : Calc Tableau := do
  let factor ← T.get i h
  if i = t ∨ factor.isZero = true then pure T
  else
    let entries ← T.row i
    let reduced ← subtractMultiple A factor entries scaled
    pure (T.setRow i reduced)

/-- Eliminates column `h` from `count` rows from row `i` on. -/
def eliminateRows (h t : Nat) (scaled : List Fraction) :
    (i count : Nat) → Tableau → Calc Tableau
  | _, 0, T => pure T
  | i, count + 1, T => do
      let T ← eliminateRow A T h t scaled i
      eliminateRows h t scaled (i + 1) count T

/-- The pivot on the entry of row `t` and column `h`. -/
def pivot (T : Tableau) (h t : Nat) (elimination : Elimination) : Calc Tableau := do
  let element ← T.get t h
  let T ← scaleRow A T t element
  let scaled ← T.row t
  match elimination with
  | .all => eliminateRows A h t scaled 0 (T.constraints + 1) T
  | .row i => eliminateRow A T h t scaled i

/-! ## Sizes -/

/-- Two tableaux have the same sizes and amounts of data. -/
structure SameSizes (T U : Tableau) : Prop where
  columns : U.columns = T.columns
  constraints : U.constraints = T.constraints
  size : U.entries.size = T.entries.size

theorem SameSizes.refl (T : Tableau) : SameSizes T T :=
  ⟨rfl, rfl, rfl⟩

/-- Sizes that stay the same twice stay the same. -/
theorem SameSizes.trans {T U V : Tableau} (h : SameSizes T U) (h' : SameSizes U V) :
    SameSizes T V :=
  ⟨h'.columns.trans h.columns, h'.constraints.trans h.constraints, h'.size.trans h.size⟩

/-- Replacing a row keeps the sizes. -/
theorem sameSizes_setRow (T : Tableau) (i : Nat) (entries : List Fraction) :
    SameSizes T (T.setRow i entries) :=
  ⟨rfl, rfl, size_setRow T i entries⟩

/-- Scaling a row keeps the sizes. -/
theorem scaleRow_sizes {T U : Tableau} {t : Nat} {element : Fraction}
    (hrun : scaleRow A T t element = .ok U) : SameSizes T U := by
  obtain ⟨entries, -, hrun⟩ := Calc.bind_eq_ok.mp hrun
  obtain ⟨scaled, -, hrun⟩ := Calc.bind_eq_ok.mp hrun
  rw [← Calc.pure_eq_ok.mp hrun]
  exact sameSizes_setRow T t scaled

/-- Eliminating from one row keeps the sizes. -/
theorem eliminateRow_sizes {T U : Tableau} {h t i : Nat} {scaled : List Fraction}
    (hrun : eliminateRow A T h t scaled i = .ok U) : SameSizes T U := by
  obtain ⟨factor, -, hrun⟩ := Calc.bind_eq_ok.mp hrun
  split at hrun
  · rw [← Calc.pure_eq_ok.mp hrun]
    exact SameSizes.refl T
  · obtain ⟨entries, -, hrun⟩ := Calc.bind_eq_ok.mp hrun
    obtain ⟨reduced, -, hrun⟩ := Calc.bind_eq_ok.mp hrun
    rw [← Calc.pure_eq_ok.mp hrun]
    exact sameSizes_setRow T i reduced

/-- Eliminating from a range of rows keeps the sizes, by induction on its length. -/
theorem eliminateRows_sizes {h t : Nat} {scaled : List Fraction} {i count : Nat} {T U : Tableau}
    (hrun : eliminateRows A h t scaled i count T = .ok U) : SameSizes T U := by
  induction count generalizing i T with
  | zero =>
      rw [← Calc.pure_eq_ok.mp hrun]
      exact SameSizes.refl T
  | succ count ih =>
      obtain ⟨V, hV, hrun⟩ := Calc.bind_eq_ok.mp hrun
      exact (eliminateRow_sizes A hV).trans (ih hrun)

/-- A pivot keeps the sizes and the amount of data. -/
theorem pivot_sizes {T U : Tableau} {h t : Nat} {elimination : Elimination}
    (hrun : pivot A T h t elimination = .ok U) : SameSizes T U := by
  obtain ⟨element, -, hrun⟩ := Calc.bind_eq_ok.mp hrun
  obtain ⟨V, hV, hrun⟩ := Calc.bind_eq_ok.mp hrun
  obtain ⟨scaled, -, hrun⟩ := Calc.bind_eq_ok.mp hrun
  refine (scaleRow_sizes A hV).trans ?_
  cases elimination with
  | all => exact eliminateRows_sizes A hrun
  | row i => exact eliminateRow_sizes A hrun

end Tableau
end ExactSimplex
