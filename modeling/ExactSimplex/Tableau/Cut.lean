import ExactSimplex.Tableau.Basic

/-!
# Fractional cuts

A cut derived from a constraint row is a new constraint that holds the negated fractional parts of the
row's entries and a slack variable of its own, which becomes basic in it.

Main results:

- Theorem {lit}`Tableau.shaped_augment`: a tableau grown by a row and a column is well shaped.
- Theorem {lit}`Tableau.addCut_sizes`: a cut adds one constraint, one column and one basic variable.
-/

namespace ExactSimplex
namespace Tableau

variable (A : Arithmetic)

/-- First constraint row whose right-hand side is not an integer. -/
def fractionalRow (T : Tableau) : Calc (Option Nat) :=
  firstIndex (fun row => do
    let value ← T.rhs row
    pure !value.isInteger) 1 T.constraints

/-- The tableau with a zero column at the right and a zero row below. -/
def augment (T : Tableau) : Tableau where
  columns := T.columns + 1
  constraints := T.constraints + 1
  entries := Array.ofFn fun k : Fin ((T.constraints + 2) * (T.width + 1)) =>
    let row := k.val / (T.width + 1)
    let column := k.val % (T.width + 1)
    if column < T.width then T.entries[row * T.width + column]?.getD Fraction.zero
    else Fraction.zero

/-- The negated fractional parts of a row. -/
def cutEntries : List Fraction → Calc (List Fraction)
  | [] => pure []
  | entry :: rest => do
      let part ← Fraction.fract A entry
      let negated ← Fraction.neg A part
      let tail ← cutEntries rest
      pure (negated :: tail)

/-- Appends the cut derived from a row; its slack becomes basic. -/
def addCut (T : Tableau) (B : Basis) (source : Nat) : Calc (Tableau × Basis) := do
  let entries ← T.row source
  let cut ← cutEntries A entries
  let grown := T.augment
  pure (grown.setRow grown.constraints (cut ++ [Fraction.one]), B.push grown.columns)

/-! ## Sizes -/

/-- An augmented tableau is well shaped, whatever it was made of. -/
theorem shaped_augment (T : Tableau) : T.augment.Shaped := by
  simp [Shaped, augment, width]

/-- A cut adds one column, one constraint and one basic variable. -/
theorem addCut_sizes {T U : Tableau} {B C : Basis} {source : Nat}
    (h : addCut A T B source = .ok (U, C)) :
    U.columns = T.columns + 1 ∧ U.constraints = T.constraints + 1 ∧ C.size = B.size + 1 := by
  obtain ⟨entries, -, h⟩ := Calc.bind_eq_ok.mp h
  obtain ⟨cut, -, h⟩ := Calc.bind_eq_ok.mp h
  cases Calc.pure_eq_ok.mp h
  simp [augment]

end Tableau
end ExactSimplex
