import ExactSimplex.Simplex.Primal

/-!
# Phase one

A feasible basis is found by minimizing the sum of one artificial variable per constraint row, after
rows with a negative right-hand side were negated.  Artificial variables left basic at zero level are
swapped for columns of the program.  The solved rows are then copied back and the objective row is
expressed in the nonbasic variables.

Main definitions:

- {lit}`Tableau.artificialTableau`: the tableau of the artificial program.
- {lit}`Tableau.driveOut`: the swaps of artificial variables that were left basic.
- {lit}`Tableau.phaseOne`: the whole stage.
-/

namespace ExactSimplex

/-- The answers of phase one. -/
inductive Feasibility where
  | feasible
  | infeasible
  deriving Repr, DecidableEq

/-- A feasibility as the outcome of a stage. -/
def Feasibility.outcome : Feasibility → Outcome
  | .feasible => .feasible
  | .infeasible => .infeasible

namespace Tableau

variable (A : Arithmetic)

/-- The unit vector of a position among `count`. -/
def unitRowEntries (position count : Nat) : List Fraction :=
  (List.range count).map fun k => if k = position then Fraction.one else Fraction.zero

/-- The constraint rows from a row on, with nonnegative right-hand sides and followed by the
coefficients of the artificial variables. -/
def artificialRows (T : Tableau) : (row count : Nat) → Calc (List (List Fraction))
  | _, 0 => pure []
  | row, count + 1 => do
      let value ← T.rhs row
      let entries ← T.row row
      let oriented ← if value.isNegative then entries.mapM (Fraction.neg A) else pure entries
      let rest ← artificialRows T (row + 1) count
      pure ((oriented ++ unitRowEntries (row - 1) T.constraints) :: rest)

/-- The tableau of the artificial objective, before it is expressed in the nonbasic variables. -/
def artificialTableau (T : Tableau) : Calc Tableau := do
  let costs := List.replicate T.width Fraction.zero ++
    List.replicate T.constraints Fraction.one
  let rows ← artificialRows A T 1 T.constraints
  pure ⟨T.columns + T.constraints, T.constraints, (costs ++ rows.flatten).toArray⟩

/-- The artificial variables, one for each row. -/
def artificialBasis (T : Tableau) : Basis :=
  ⟨(List.range T.constraints).map fun k => T.columns + 1 + k⟩

/-- Makes the columns of `count` rows from a row on vanish in the objective row, by pivots that change
no other row than their own. -/
def priceOut (column : Nat → Calc Nat) : (row count : Nat) → Tableau → Calc Tableau
  | _, 0, T => pure T
  | row, count + 1, T => do
      let h ← column row
      let T ← T.pivot A h row (.row 0)
      priceOut column (row + 1) count T

/-- The state while artificial variables are driven out. -/
structure Drive where
  tableau : Tableau
  basis : Basis
  events : List Event

/-- Swaps the artificial variables, those above `columns`, that are basic in `count` rows from a row
on.  It ends early at a row without a nonzero coefficient, which is returned. -/
def driveOut (columns : Nat) : (row count : Nat) → Drive → Calc (Drive × Option Nat)
  | _, 0, state => pure (state, none)
  | row, count + 1, state => do
      let basic ← state.basis.inRow row
      if basic ≤ columns then driveOut columns (row + 1) count state
      else
        let nonzero ← firstIndex (fun column => do
          let entry ← state.tableau.get row column
          pure !entry.isZero) 1 columns
        match nonzero with
        | none => pure (state, some row)
        | some entering =>
            let T ← state.tableau.pivot A entering row .all
            let B ← state.basis.enter row entering
            driveOut columns (row + 1) count
              ⟨T, B, state.events ++ [.degeneracy row basic entering]⟩

/-- Copies the first entries of `count` rows of another tableau, from a row on. -/
def copyRows (source : Tableau) : (row count : Nat) → Tableau → Calc Tableau
  | _, 0, T => pure T
  | row, count + 1, T => do
      let entries ← source.row row
      copyRows source (row + 1) count (T.setRow row (entries.take T.width))

/-- Looks for a feasible basis.  On success the tableau holds the solved rows and an objective row in
the nonbasic variables, ready for the primal method; otherwise tableau and basis are left as they
were. -/
def phaseOne (budget : Nat) (T : Tableau) (B : Basis) :
    Calc (Run (Except SolveError Feasibility)) := do
  let start ← artificialTableau A T
  let priced ← priceOut A (fun row => pure (T.columns + row)) 1 T.constraints start
  let run ← primalSimplex A budget priced T.artificialBasis
  let residual ← run.tableau.objectiveValue A
  let events := .started .phaseOne :: run.events
  if run.result = .unbounded ∨ residual.isZero = false then
    pure ⟨.ok .infeasible, T, B, events ++ [.finished .phaseOne .infeasible none]⟩
  else
    let (state, dependent) ← driveOut A T.columns 1 T.constraints ⟨run.tableau, run.basis, events⟩
    match dependent with
    | some row => pure ⟨.error (.notFullRank row), T, B, state.events⟩
    | none =>
        let copied ← copyRows state.tableau 1 T.constraints T
        let solved ← priceOut A state.basis.inRow 1 T.constraints copied
        let objective ← solved.objectiveValue A
        pure ⟨.ok .feasible, solved, state.basis,
          state.events ++ [.finished .phaseOne .feasible (some objective)]⟩

end Tableau
end ExactSimplex
