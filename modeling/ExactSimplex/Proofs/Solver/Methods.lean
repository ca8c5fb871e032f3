import ExactSimplex.Solver.Solve
import Mathlib.Data.Nat.Notation

/-!
# What the methods return

The primal and the dual method do the same thing with different rules: they find a start, run one stage and
read the answer off its last state.  They also differ in what they make of a stage that ends unbounded.  Here
both are one solve with these parts as parameters, and what it returns is said once, as it is for the solve by
both phases and for the one by cutting planes.

Main results:

- Theorems {lit}`Solver.solvePrimal_eq` and {lit}`Solver.solveDual_eq`: the two methods as solves by one stage.
- Theorems {lit}`Solver.solveStage_cases`, {lit}`Solver.solveTwoPhase_cases` and
  {lit}`Solver.solveInteger_cases`: what each solve returns.
- Theorems {lit}`Solver.solveStage_optimal` and {lit}`Solver.solveInteger_optimal`: where a reported optimum
  comes from.
-/

namespace ExactSimplex
namespace Solver

open Calc

variable {A : Arithmetic} {budget columns : ℕ} {S : Solver} {T : Tableau} {solved : Solved}
  {solution : Solution} {stage : Stage} {rule : Rule} {unbounded : Basis → Solution}
  {run : Run SimplexStatus}

/-- The answer that is read off the end of a stage on a program of `columns` variables: an optimum, or what
`unbounded` makes of the last basis. -/
def stageSolution (A : Arithmetic) (unbounded : Basis → Solution) (columns : ℕ)
    (run : Run SimplexStatus) : Calc Solution :=
  match run.result with
  | .optimal => Solution.optimal A run.tableau run.basis columns 0
  | .unbounded => pure (unbounded run.basis)

/-- A solve by one stage from a starting basis. -/
def solveStage (A : Arithmetic) (stage : Stage) (rule : Rule) (unbounded : Basis → Solution)
    (budget : ℕ) (S : Solver) (T : Tableau) : Calc Solved := do
  match ← startingBasis A S T with
  | .error e => pure ⟨.error e, T, []⟩
  | .ok B => do
      let run ← runStage A stage rule budget T B
      let solution ← stageSolution A unbounded T.columns run
      pure ⟨.ok solution, run.tableau, run.events⟩

/-! ## The two methods -/

/-- The primal method shows an unbounded program with its last basis. -/
theorem primalSolution_eq (A : Arithmetic) (columns : ℕ) (run : Run SimplexStatus) :
    primalSolution A columns run = stageSolution A Solution.unbounded columns run :=
  rfl

/-- The primal method is a solve by one stage. -/
theorem solvePrimal_eq (A : Arithmetic) (budget : ℕ) (S : Solver) (T : Tableau) :
    solvePrimal A budget S T =
      solveStage A .primal (Tableau.primalRule A) Solution.unbounded budget S T :=
  rfl

/-- The dual method is a solve by one stage; if it ends unbounded, there is no feasible point. -/
theorem solveDual_eq (A : Arithmetic) (budget : ℕ) (S : Solver) (T : Tableau) :
    solveDual A budget S T =
      solveStage A .dual (Tableau.dualRule A) (fun _ => .infeasible 0) budget S T :=
  rfl

/-! ## One stage -/

/-- The answer of a stage is its optimum, or what is shown when it ends unbounded. -/
theorem stageSolution_cases (h : stageSolution A unbounded columns run = .ok solution) :
    (run.result = .optimal ∧
        Solution.optimal A run.tableau run.basis columns 0 = .ok solution) ∨
      run.result = .unbounded ∧ solution = unbounded run.basis := by
  unfold stageSolution at h
  cases hresult : run.result with
  | optimal =>
      rw [hresult] at h
      exact Or.inl ⟨rfl, h⟩
  | unbounded =>
      rw [hresult] at h
      exact Or.inr ⟨rfl, (pure_eq_ok.mp h).symm⟩

/-- A solve by one stage finds no start and does nothing, or it returns what is read off the end of the
stage. -/
theorem solveStage_cases (h : solveStage A stage rule unbounded budget S T = .ok solved) :
    (∃ e, startingBasis A S T = .ok (.error e) ∧ solved = ⟨.error e, T, []⟩) ∨
      ∃ B run solution, startingBasis A S T = .ok (.ok B) ∧
        runStage A stage rule budget T B = .ok run ∧
        stageSolution A unbounded T.columns run = .ok solution ∧
        solved = ⟨.ok solution, run.tableau, run.events⟩ := by
  rcases bind_eq_ok.mp h with ⟨start, hstart, h⟩
  cases start with
  | error e => exact Or.inl ⟨e, hstart, (pure_eq_ok.mp h).symm⟩
  | ok B =>
      rcases bind_eq_ok.mp h with ⟨run, hrun, h⟩
      rcases bind_eq_ok.mp h with ⟨solution, hsolution, h⟩
      exact Or.inr ⟨B, run, solution, hstart, hrun, hsolution, (pure_eq_ok.mp h).symm⟩

/-- A solution comes from a stage that was run. -/
theorem solveStage_ok (h : solveStage A stage rule unbounded budget S T = .ok solved)
    (hresult : solved.result = .ok solution) :
    ∃ B run, startingBasis A S T = .ok (.ok B) ∧ runStage A stage rule budget T B = .ok run ∧
      stageSolution A unbounded T.columns run = .ok solution ∧
      solved = ⟨.ok solution, run.tableau, run.events⟩ := by
  rcases solveStage_cases h with ⟨e, -, rfl⟩ | ⟨B, run, shown, hstart, hrun, hshown, rfl⟩
  · cases hresult
  · cases hresult
    exact ⟨B, run, hstart, hrun, hshown, rfl⟩

/-- A reported optimum is that of the last state of the stage, unless an unbounded stage is shown as one. -/
theorem solveStage_optimal (h : solveStage A stage rule unbounded budget S T = .ok solved)
    (hunbounded : ∀ B, (unbounded B).status ≠ .optimal)
    (hresult : solved.result = .ok solution) (hstatus : solution.status = .optimal) :
    ∃ B run, startingBasis A S T = .ok (.ok B) ∧ runStage A stage rule budget T B = .ok run ∧
      run.result = .optimal ∧
      Solution.optimal A run.tableau run.basis T.columns 0 = .ok solution ∧
      solved.tableau = run.tableau := by
  rcases solveStage_ok h hresult with ⟨B, run, hstart, hrun, hshown, rfl⟩
  rcases stageSolution_cases hshown with ⟨hoptimal, hsolution⟩ | ⟨-, rfl⟩
  · exact ⟨B, run, hstart, hrun, hoptimal, hsolution, rfl⟩
  · exact absurd hstatus (hunbounded _)

/-! ## Both phases -/

/-- A solve by both phases returns what phase one fails with or finds infeasible, or what is read off the end of
the primal method after it. -/
theorem solveTwoPhase_cases (h : solveTwoPhase A budget T = .ok solved) :
    ∃ first, T.phaseOne A budget ⟨[]⟩ = .ok first ∧
      ((∃ e, first.result = .error e ∧ solved = ⟨.error e, first.tableau, first.events⟩) ∨
        (first.result = .ok .infeasible ∧
          solved = ⟨.ok (.infeasible 0), first.tableau, first.events⟩) ∨
        ∃ run solution, first.result = .ok .feasible ∧
          runStage A .primal (Tableau.primalRule A) budget first.tableau first.basis = .ok run ∧
          stageSolution A .unbounded T.columns run = .ok solution ∧
          solved = ⟨.ok solution, run.tableau, first.events ++ run.events⟩) := by
  rcases bind_eq_ok.mp h with ⟨first, hfirst, h⟩
  refine ⟨first, hfirst, ?_⟩
  rcases hresult : first.result with e | (_ | _) <;> rw [hresult] at h
  · exact Or.inl ⟨e, rfl, (pure_eq_ok.mp h).symm⟩
  · rcases bind_eq_ok.mp h with ⟨run, hrun, h⟩
    rcases bind_eq_ok.mp h with ⟨solution, hsolution, h⟩
    exact Or.inr (Or.inr ⟨run, solution, rfl, hrun, hsolution, (pure_eq_ok.mp h).symm⟩)
  · exact Or.inr (Or.inl ⟨rfl, (pure_eq_ok.mp h).symm⟩)

/-! ## Cutting planes -/

/-- A solve by cutting planes returns what they fail with, or what is read off their end. -/
theorem solveInteger_cases (h : solveInteger A budget T = .ok solved) :
    ∃ run, T.cuttingPlane A budget ⟨[]⟩ = .ok run ∧
      ((∃ e, run.result = .error e ∧ solved = ⟨.error e, run.tableau, run.events⟩) ∨
        ∃ status solution, run.result = .ok status ∧
          integerSolution A T.columns T.constraints status run.tableau run.basis = .ok solution ∧
          solved = ⟨.ok solution, run.tableau, run.events⟩) := by
  rcases bind_eq_ok.mp h with ⟨run, hrun, h⟩
  refine ⟨run, hrun, ?_⟩
  rcases hresult : run.result with e | status <;> rw [hresult] at h
  · exact Or.inl ⟨e, rfl, (pure_eq_ok.mp h).symm⟩
  · rcases bind_eq_ok.mp h with ⟨solution, hsolution, h⟩
    exact Or.inr ⟨status, solution, rfl, hsolution, (pure_eq_ok.mp h).symm⟩

/-- A reported optimum is that of the last state of cutting planes, with the constraints they added as
cuts. -/
theorem solveInteger_optimal (h : solveInteger A budget T = .ok solved)
    (hresult : solved.result = .ok solution) (hstatus : solution.status = .optimal) :
    ∃ run, T.cuttingPlane A budget ⟨[]⟩ = .ok run ∧ run.result = .ok .optimal ∧
      Solution.optimal A run.tableau run.basis T.columns (run.tableau.constraints - T.constraints) =
        .ok solution ∧ solved.tableau = run.tableau := by
  rcases solveInteger_cases h with ⟨run, hrun, ⟨_, -, rfl⟩ | ⟨status, shown, hstop, hshown, rfl⟩⟩
  · cases hresult
  · cases hresult
    cases status with
    | optimal => exact ⟨run, hrun, hstop, hshown, rfl⟩
    | unbounded =>
        cases pure_eq_ok.mp hshown
        cases hstatus
    | infeasible =>
        cases pure_eq_ok.mp hshown
        cases hstatus

end Solver
end ExactSimplex
