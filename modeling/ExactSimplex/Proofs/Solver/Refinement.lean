import ExactSimplex.Proofs.Simplex.CuttingPlane
import ExactSimplex.Proofs.Simplex.Refinement
import ExactSimplex.Proofs.Solver.Methods

/-!
# Solves where no result is refused

A solve hands a tableau and a basis from stage to stage and reads its answer off the last one, so it has
the same answer in every arithmetic that stores the same integers.  In particular a run or a solve that
checked arithmetic completes is the run of wrapping arithmetic of the same width, and it is also the exact
one: status or error, final tableau, basis, solution and every reported event.

Main results:

- Theorem {lit}`Solver.refines_solve`: the answers of two arithmetics.
- Theorem {lit}`same_run_of_checked`: what checked arithmetic completes.
-/

namespace ExactSimplex

open Calc

variable {A A' : Arithmetic}

/-- The optimum that is read off in two arithmetics. -/
@[gcongr]
theorem Solution.refines_optimal (hA : A.Refines A') (T : Tableau) (B : Basis) (columns cuts : ℕ) :
    Refines (Solution.optimal A T B columns cuts) (Solution.optimal A' T B columns cuts) := by
  unfold Solution.optimal
  gcongr

namespace Solver

/-- The start in two arithmetics. -/
@[gcongr]
theorem refines_startingBasis (hA : A.Refines A') (S : Solver) (T : Tableau) :
    Refines (startingBasis A S T) (startingBasis A' S T) := by
  unfold startingBasis
  cases S.basis with
  | some B => exact (Tableau.refines_basisDefect hA T B).bind fun defect => .refl _
  | none => exact (Tableau.refines_startingBasis hA T).bind fun found => .refl _

/-! ## Answers -/

/-- The answer that is read off a stage in two arithmetics. -/
@[gcongr]
theorem refines_stageSolution (hA : A.Refines A') (unbounded : Basis → Solution) (columns : ℕ)
    (run : Run SimplexStatus) :
    Refines (stageSolution A unbounded columns run) (stageSolution A' unbounded columns run) := by
  unfold stageSolution
  cases run.result with
  | optimal => exact Solution.refines_optimal hA run.tableau run.basis columns 0
  | unbounded => rfl

/-- The answer that is read off cutting planes in two arithmetics. -/
@[gcongr]
theorem refines_integerSolution (hA : A.Refines A') (columns constraints : ℕ)
    (status : IntegerStatus) (T : Tableau) (B : Basis) :
    Refines (integerSolution A columns constraints status T B)
      (integerSolution A' columns constraints status T B) := by
  unfold integerSolution
  cases status with
  | optimal => exact Solution.refines_optimal hA T B columns (T.constraints - constraints)
  | unbounded => rfl
  | infeasible => rfl

/-! ## Methods -/

/-- The answers of a method of one stage, where the answers of its rule refine each other. -/
theorem refines_solveStage (hA : A.Refines A') (stage : Stage) {rule rule' : Rule}
    (hrule : ∀ T B, Refines (rule T B) (rule' T B)) (unbounded : Basis → Solution) (budget : ℕ)
    (S : Solver) (T : Tableau) :
    Refines (solveStage A stage rule unbounded budget S T)
      (solveStage A' stage rule' unbounded budget S T) := by
  refine (refines_startingBasis hA S T).bind fun start => ?_
  cases start with
  | error e => rfl
  | ok B =>
      refine (refines_runStage hA stage hrule budget T B).bind fun run => ?_
      gcongr

/-- Both phases in two arithmetics. -/
theorem refines_solveTwoPhase (hA : A.Refines A') (budget : ℕ) (T : Tableau) :
    Refines (solveTwoPhase A budget T) (solveTwoPhase A' budget T) := by
  refine (Tableau.refines_phaseOne hA budget T ⟨[]⟩).bind fun first => ?_
  rcases first.result with e | (_ | _)
  · rfl
  · simp only [primalSolution_eq]
    gcongr
  · rfl

/-- A solve by cutting planes in two arithmetics. -/
theorem refines_solveInteger (hA : A.Refines A') (budget : ℕ) (T : Tableau) :
    Refines (solveInteger A budget T) (solveInteger A' budget T) := by
  refine (Tableau.refines_cuttingPlane hA budget T ⟨[]⟩).bind fun run => ?_
  cases run.result with
  | error e => rfl
  | ok status =>
      dsimp only
      gcongr

/-- A solve in two arithmetics, whatever its method. -/
theorem refines_solve (hA : A.Refines A') (budget : ℕ) (S : Solver) (T : Tableau) :
    Refines (solve A budget S T) (solve A' budget S T) := by
  unfold solve
  cases S.method with
  | simplex => exact refines_solveStage hA .primal (Tableau.refines_primalRule hA) .unbounded budget S T
  | twoPhase => exact refines_solveTwoPhase hA budget T
  | dualSimplex =>
      exact refines_solveStage hA .dual (Tableau.refines_dualRule hA) (fun _ => .infeasible 0) budget S T
  | cuttingPlane => exact refines_solveInteger hA budget T

end Solver

/-- A run that checked arithmetic completes is completed with the same result, tableau, basis and events
by wrapping arithmetic of the same width and by exact arithmetic, and so is a solve.  Checked arithmetic
gives up at a sum, a difference, a product or a negation only: it has the greatest common divisor of any
two integers that it holds. -/
theorem same_run_of_checked (bits budget : ℕ) (T : Tableau) (B : Basis) (S : Solver) :
    (∀ a b : ℤ, (Arithmetic.checked bits).holds a = true → (Arithmetic.checked bits).holds b = true →
      (Arithmetic.checked bits).gcd a b = .ok (Int.gcd a b)) ∧
    (∀ run, T.primalSimplex (.checked bits) budget B = .ok run →
      T.primalSimplex (.wrapping bits) budget B = .ok run ∧
        T.primalSimplex .exact budget B = .ok run) ∧
    (∀ run, T.dualSimplex (.checked bits) budget B = .ok run →
      T.dualSimplex (.wrapping bits) budget B = .ok run ∧ T.dualSimplex .exact budget B = .ok run) ∧
    (∀ run, T.phaseOne (.checked bits) budget B = .ok run →
      T.phaseOne (.wrapping bits) budget B = .ok run ∧ T.phaseOne .exact budget B = .ok run) ∧
    (∀ run, T.cuttingPlane (.checked bits) budget B = .ok run →
      T.cuttingPlane (.wrapping bits) budget B = .ok run ∧
        T.cuttingPlane .exact budget B = .ok run) ∧
    ∀ solved, S.solve (.checked bits) budget T = .ok solved →
      S.solve (.wrapping bits) budget T = .ok solved ∧ S.solve .exact budget T = .ok solved := by
  have hwrapping := Arithmetic.refines_wrapping bits
  have hexact := Arithmetic.refines_exact bits
  refine ⟨fun a b => Arithmetic.gcd_checked, fun run hrun => ?primal, fun run hrun => ?dual,
    fun run hrun => ?phaseOne, fun run hrun => ?cuttingPlane, fun solved hsolved => ?solve⟩
  case primal =>
    exact ⟨Tableau.refines_primalSimplex hwrapping budget T B run hrun,
      Tableau.refines_primalSimplex hexact budget T B run hrun⟩
  case dual =>
    exact ⟨Tableau.refines_dualSimplex hwrapping budget T B run hrun,
      Tableau.refines_dualSimplex hexact budget T B run hrun⟩
  case phaseOne =>
    exact ⟨Tableau.refines_phaseOne hwrapping budget T B run hrun,
      Tableau.refines_phaseOne hexact budget T B run hrun⟩
  case cuttingPlane =>
    exact ⟨Tableau.refines_cuttingPlane hwrapping budget T B run hrun,
      Tableau.refines_cuttingPlane hexact budget T B run hrun⟩
  case solve =>
    exact ⟨Solver.refines_solve hwrapping budget S T solved hsolved,
      Solver.refines_solve hexact budget S T solved hsolved⟩

/-- All five of them complete in checked words of 32 bits on a small program, a round of cuts included. -/
theorem same_run_of_checked_halves :
    (∃ run, halves.primalSimplex (.wrapping 32) 5 ⟨[2]⟩ = .ok run ∧
      halves.primalSimplex .exact 5 ⟨[2]⟩ = .ok run ∧ run.result = .optimal) ∧
    (∃ run, halves.dualSimplex (.wrapping 32) 5 ⟨[2]⟩ = .ok run ∧
      halves.dualSimplex .exact 5 ⟨[2]⟩ = .ok run ∧ run.result = .optimal) ∧
    (∃ run, halves.phaseOne (.wrapping 32) 5 ⟨[2]⟩ = .ok run ∧
      halves.phaseOne .exact 5 ⟨[2]⟩ = .ok run ∧ run.result = .ok .feasible) ∧
    (∃ run, halves.cuttingPlane (.wrapping 32) 5 ⟨[2]⟩ = .ok run ∧
      halves.cuttingPlane .exact 5 ⟨[2]⟩ = .ok run ∧ run.result = .ok .optimal) ∧
    ∃ solved, Solver.solve (.wrapping 32) 5 ⟨.cuttingPlane, none⟩ halves = .ok solved ∧
      Solver.solve .exact 5 ⟨.cuttingPlane, none⟩ halves = .ok solved ∧
        solved.events.length = 13 := by
  rcases same_run_of_checked 32 5 halves ⟨[2]⟩ ⟨.cuttingPlane, none⟩ with
    ⟨-, hprimal, hdual, hphaseOne, hcuttingPlane, hsolve⟩
  refine ⟨?primal, ?dual, ?phaseOne, ?cuttingPlane, ?solve⟩
  case primal =>
    have hchecked : (halves.primalSimplex (.checked 32) 5 ⟨[2]⟩).map (fun run => run.result) =
        .ok .optimal := by
      decide +kernel
    rcases map_eq_ok.mp hchecked with ⟨run, hrun, hresult⟩
    exact ⟨run, (hprimal run hrun).1, (hprimal run hrun).2, hresult⟩
  case dual =>
    have hchecked : (halves.dualSimplex (.checked 32) 5 ⟨[2]⟩).map (fun run => run.result) =
        .ok .optimal := by
      decide +kernel
    rcases map_eq_ok.mp hchecked with ⟨run, hrun, hresult⟩
    exact ⟨run, (hdual run hrun).1, (hdual run hrun).2, hresult⟩
  case phaseOne =>
    have hchecked : (halves.phaseOne (.checked 32) 5 ⟨[2]⟩).map (fun run => run.result) =
        .ok (.ok .feasible) := by
      decide +kernel
    rcases map_eq_ok.mp hchecked with ⟨run, hrun, hresult⟩
    exact ⟨run, (hphaseOne run hrun).1, (hphaseOne run hrun).2, hresult⟩
  case cuttingPlane =>
    have hchecked : (halves.cuttingPlane (.checked 32) 5 ⟨[2]⟩).map (fun run => run.result) =
        .ok (.ok .optimal) := by
      decide +kernel
    rcases map_eq_ok.mp hchecked with ⟨run, hrun, hresult⟩
    exact ⟨run, (hcuttingPlane run hrun).1, (hcuttingPlane run hrun).2, hresult⟩
  case solve =>
    have hchecked : (Solver.solve (.checked 32) 5 ⟨.cuttingPlane, none⟩ halves).map
        (fun solved => solved.events.length) = .ok 13 := by
      decide +kernel
    rcases map_eq_ok.mp hchecked with ⟨solved, hsolved, hlength⟩
    exact ⟨solved, (hsolve solved hsolved).1, (hsolve solved hsolved).2, hlength⟩

end ExactSimplex
