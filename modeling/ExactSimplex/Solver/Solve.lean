import ExactSimplex.Simplex.CuttingPlane
import ExactSimplex.Solver.Method
import ExactSimplex.Solver.Solution

/-!
# The solver

The solver runs one of the methods on a tableau and packages the answer.  A starting basis may be given
to the primal and the dual method; without one it is searched for in the tableau.  Phase one and cutting
planes find their own.

Main results:

- Theorem {lit}`Solver.solve_of_no_start`: without a starting basis nothing is done to the tableau.
-/

namespace ExactSimplex

/-- A method with an optional starting basis. -/
structure Solver where
  method : Method := .simplex
  basis : Option Basis := none
  deriving Repr, DecidableEq

/-- The answer of a solve with the tableau it left and its events. -/
structure Solved where
  result : Except SolveError Solution
  tableau : Tableau
  events : List Event
  deriving Repr

namespace Solver

variable (A : Arithmetic)

/-- The given basis if it has no defect, else an identity in the tableau. -/
def startingBasis (S : Solver) (T : Tableau) : Calc (Except SolveError Basis) := do
  match S.basis with
  | some B =>
      match ← T.basisDefect A B with
      | some defect => pure (.error (.invalidBasis defect))
      | none => pure (.ok B)
  | none =>
      match ← T.startingBasis A with
      | some B => pure (.ok B)
      | none => pure (.error .noStartingBasis)

/-- The answer of a run of the primal method on a tableau that had `columns` variables. -/
def primalSolution (columns : Nat) (run : Run SimplexStatus) : Calc Solution :=
  match run.result with
  | .optimal => Solution.optimal A run.tableau run.basis columns 0
  | .unbounded => pure (Solution.unbounded run.basis)

/-- The answer of a run of the dual method. -/
def dualSolution (columns : Nat) (run : Run SimplexStatus) : Calc Solution :=
  match run.result with
  | .optimal => Solution.optimal A run.tableau run.basis columns 0
  | .unbounded => pure (Solution.infeasible 0)

/-- The answer of a cutting plane run on a tableau that had `columns` variables and `constraints`
rows. -/
def integerSolution (columns constraints : Nat) (status : IntegerStatus) (T : Tableau) (B : Basis) :
    Calc Solution :=
  let cuts := T.constraints - constraints
  match status with
  | .optimal => Solution.optimal A T B columns cuts
  | .unbounded => pure (Solution.unbounded B)
  | .infeasible => pure (Solution.infeasible cuts)

/-- The primal method from a starting basis. -/
def solvePrimal (budget : Nat) (S : Solver) (T : Tableau) : Calc Solved := do
  match ← startingBasis A S T with
  | .error e => pure ⟨.error e, T, []⟩
  | .ok B => do
      let run ← T.primalSimplex A budget B
      let solution ← primalSolution A T.columns run
      pure ⟨.ok solution, run.tableau, run.events⟩

/-- The dual method from a starting basis. -/
def solveDual (budget : Nat) (S : Solver) (T : Tableau) : Calc Solved := do
  match ← startingBasis A S T with
  | .error e => pure ⟨.error e, T, []⟩
  | .ok B => do
      let run ← T.dualSimplex A budget B
      let solution ← dualSolution A T.columns run
      pure ⟨.ok solution, run.tableau, run.events⟩

/-- Phase one, then the primal method. -/
def solveTwoPhase (budget : Nat) (T : Tableau) : Calc Solved := do
  let first ← T.phaseOne A budget ⟨[]⟩
  match first.result with
  | .error e => pure ⟨.error e, first.tableau, first.events⟩
  | .ok .infeasible => pure ⟨.ok (Solution.infeasible 0), first.tableau, first.events⟩
  | .ok .feasible => do
      let run ← first.tableau.primalSimplex A budget first.basis
      let solution ← primalSolution A T.columns run
      pure ⟨.ok solution, run.tableau, first.events ++ run.events⟩

/-- Cutting planes. -/
def solveInteger (budget : Nat) (T : Tableau) : Calc Solved := do
  let run ← T.cuttingPlane A budget ⟨[]⟩
  match run.result with
  | .error e => pure ⟨.error e, run.tableau, run.events⟩
  | .ok status => do
      let solution ← integerSolution A T.columns T.constraints status run.tableau run.basis
      pure ⟨.ok solution, run.tableau, run.events⟩

/-- Solves the program of a tableau. -/
def solve (budget : Nat) (S : Solver) (T : Tableau) : Calc Solved :=
  match S.method with
  | .simplex => solvePrimal A budget S T
  | .dualSimplex => solveDual A budget S T
  | .twoPhase => solveTwoPhase A budget T
  | .cuttingPlane => solveInteger A budget T

/-- Without a starting basis nothing is done to the tableau, and nothing is told. -/
theorem solve_of_no_start {S : Solver} {T : Tableau} {e : SolveError}
    (hmethod : S.method = .simplex ∨ S.method = .dualSimplex)
    (h : startingBasis A S T = .ok (.error e)) (budget : Nat) :
    solve A budget S T = .ok ⟨.error e, T, []⟩ := by
  rcases hmethod with hmethod | hmethod <;>
    simp [solve, solvePrimal, solveDual, hmethod, h, bind, Except.bind, pure, Except.pure]

end Solver
end ExactSimplex
