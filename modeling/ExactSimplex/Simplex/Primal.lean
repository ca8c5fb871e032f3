import ExactSimplex.Simplex.Run

/-!
# The primal simplex method

The first column with a negative reduced cost enters.  Among the rows with a positive entry in it, one
with the least ratio of right-hand side to entry leaves; of several, the one whose basic variable has
the least index.  This is Bland's rule.

Main results:

- Theorem {lit}`Tableau.primalRule_of_optimal`: without a negative reduced cost the method stops.
-/

namespace ExactSimplex
namespace Tableau

variable (A : Arithmetic)

/-- The first column with a negative reduced cost. -/
def enteringColumn (T : Tableau) : Calc (Option Nat) :=
  firstIndex (fun column => do
    let cost ← T.reducedCost column
    pure cost.isNegative) 1 T.columns

/-- Whether a row with a ratio goes before the best row so far. -/
def leavesBefore (B : Basis) (row : Nat) (ratio : Fraction) :
    Option (Nat × Fraction) → Calc Bool
  | none => pure true
  | some (best, least) => do
      if ← Fraction.lt A ratio least then pure true
      else if ← Fraction.eq A ratio least then
        let index ← B.inRow row
        let bestIndex ← B.inRow best
        pure (decide (index < bestIndex))
      else pure false

/-- The ratio test over `count` rows from a row on. -/
def ratioTest (T : Tableau) (B : Basis) (column : Nat) :
    (row count : Nat) → (best : Option (Nat × Fraction)) → Calc (Option (Nat × Fraction))
  | _, 0, best => pure best
  | row, count + 1, best => do
      let entry ← T.get row column
      if entry.isPositive then
        let bound ← T.rhs row
        let ratio ← Fraction.div A bound entry
        if ← leavesBefore A B row ratio best then
          ratioTest T B column (row + 1) count (some (row, ratio))
        else ratioTest T B column (row + 1) count best
      else ratioTest T B column (row + 1) count best

/-- The row that leaves for a column; none if nothing bounds the column. -/
def pivotRow (T : Tableau) (B : Basis) (column : Nat) : Calc (Option Nat) :=
  Option.map Prod.fst <$> ratioTest A T B column 1 T.constraints none

/-- The next pivot of the primal method. -/
def primalRule : Rule := fun T B => do
  match ← T.enteringColumn with
  | none => pure (.stop .optimal)
  | some column =>
      match ← pivotRow A T B column with
      | none => pure (.stop .unbounded)
      | some row => pure (.pivot column row)

/-- Drives a tableau with a canonical, feasible basis to optimality. -/
def primalSimplex (budget : Nat) (T : Tableau) (B : Basis) : Calc (Run SimplexStatus) :=
  runStage A .primal (primalRule A) budget T B

/-- Without a negative reduced cost the method stops. -/
theorem primalRule_of_optimal {T : Tableau} (B : Basis) (h : T.enteringColumn = .ok none) :
    primalRule A T B = .ok (.stop .optimal) := by
  simp [primalRule, h, bind, Except.bind, pure, Except.pure]

end Tableau
end ExactSimplex
