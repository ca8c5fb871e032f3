import ExactSimplex.Simplex.Run

/-!
# The dual simplex method

Among the rows with a negative right-hand side, the one whose basic variable has the least index
leaves.  Among the columns with a negative entry in it, the first with the least absolute ratio of
reduced cost to entry enters.

Main results:

- Theorem {lit}`Tableau.dualRule_of_feasible`: without a negative right-hand side the method stops.
-/

namespace ExactSimplex
namespace Tableau

variable (A : Arithmetic)

/-- The row of least basic index among the negative ones of `count` rows from a row on. -/
def leavingRowFrom (T : Tableau) (B : Basis) :
    (row count : Nat) → (best : Option (Nat × Nat)) → Calc (Option (Nat × Nat))
  | _, 0, best => pure best
  | row, count + 1, best => do
      let value ← T.rhs row
      if value.isNegative then
        let index ← B.inRow row
        match best with
        | none => leavingRowFrom T B (row + 1) count (some (row, index))
        | some (bestRow, bestIndex) =>
            if index < bestIndex then leavingRowFrom T B (row + 1) count (some (row, index))
            else leavingRowFrom T B (row + 1) count (some (bestRow, bestIndex))
      else leavingRowFrom T B (row + 1) count best

/-- The row that leaves; none if every right-hand side is nonnegative. -/
def leavingRow (T : Tableau) (B : Basis) : Calc (Option Nat) :=
  Option.map Prod.fst <$> leavingRowFrom T B 1 T.constraints none

/-- Whether a ratio goes before the best one so far. -/
def entersBefore (ratio : Fraction) : Option (Nat × Fraction) → Calc Bool
  | none => pure true
  | some (_, least) => Fraction.lt A ratio least

/-- The dual ratio test over `count` columns from a column on. -/
def dualRatioTest (T : Tableau) (row : Nat) :
    (column count : Nat) → (best : Option (Nat × Fraction)) → Calc (Option (Nat × Fraction))
  | _, 0, best => pure best
  | column, count + 1, best => do
      let entry ← T.get row column
      if entry.isNegative then
        let cost ← T.reducedCost column
        let quotient ← Fraction.div A cost entry
        let ratio ← Fraction.abs A quotient
        if ← entersBefore A ratio best then
          dualRatioTest T row (column + 1) count (some (column, ratio))
        else dualRatioTest T row (column + 1) count best
      else dualRatioTest T row (column + 1) count best

/-- The column that enters for a row; none if the row has no negative entry. -/
def dualColumn (T : Tableau) (row : Nat) : Calc (Option Nat) :=
  Option.map Prod.fst <$> dualRatioTest A T row 1 T.columns none

/-- The next pivot of the dual method. -/
def dualRule : Rule := fun T B => do
  match ← T.leavingRow B with
  | none => pure (.stop .optimal)
  | some row =>
      match ← dualColumn A T row with
      | none => pure (.stop .unbounded)
      | some column => pure (.pivot column row)

/-- Drives a tableau with a canonical basis and nonnegative reduced costs to feasibility.  Unbounded
means that the dual is, so no feasible point exists. -/
def dualSimplex (budget : Nat) (T : Tableau) (B : Basis) : Calc (Run SimplexStatus) :=
  runStage A .dual (dualRule A) budget T B

/-- Without a negative right-hand side the method stops. -/
theorem dualRule_of_feasible {T : Tableau} {B : Basis} (h : T.leavingRow B = .ok none) :
    dualRule A T B = .ok (.stop .optimal) := by
  simp [dualRule, h, bind, Except.bind, pure, Except.pure]

end Tableau
end ExactSimplex
