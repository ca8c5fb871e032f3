import ExactSimplex.Proofs.Simplex.PartOf
import ExactSimplex.Proofs.Solver.Methods

/-!
# Solves of tableaux whose data go on

The primal method, the dual method and phase one before the primal method find their start, run their stages
and read off their answer on a tableau as on any larger one, unless they leave its data.

Main results:

- Theorem {lit}`Solution.persists_optimal`: the optimum that is read off a tableau.
- Theorem {lit}`Solver.persists_solve`: a solve that makes no cuts.
-/

namespace ExactSimplex

open Calc

variable {A : Arithmetic} {T U : Tableau}

/-- The same optimum is read off both tableaux. -/
theorem Solution.persists_optimal (h : T.PartOf U) (B : Basis) (columns cuts : ℕ) :
    Persists Eq (Solution.optimal A T B columns cuts) (Solution.optimal A U B columns cuts) := by
  unfold Solution.optimal
  gcongr

/-- The second answer is the same, and its tableau stores what the first one's does. -/
structure Solved.PartOf (solved solved' : Solved) : Prop where
  result : solved'.result = solved.result
  tableau : solved.tableau.PartOf solved'.tableau

namespace Solver

/-! ## Answers -/

/-- The same answer is read off the ends of both runs. -/
theorem persists_stageSolution {run run' : Run SimplexStatus} (h : run.PartOf run')
    (unbounded : Basis → Solution) (columns : ℕ) :
    Persists Eq (stageSolution A unbounded columns run) (stageSolution A unbounded columns run') := by
  unfold stageSolution
  rw [h.result, h.basis]
  cases run.result with
  | optimal => exact Solution.persists_optimal h.tableau run.basis columns 0
  | unbounded => rfl

/-! ## Methods -/

variable (h : T.PartOf U) (S : Solver) (budget : ℕ)

include h

/-- Both tableaux have the same start. -/
theorem persists_startingBasis : Persists Eq (S.startingBasis A T) (S.startingBasis A U) := by
  unfold startingBasis
  cases S.basis with
  | some B =>
      dsimp only
      gcongr
  | none =>
      dsimp only
      gcongr

/-- A method of one stage, where its rule chooses the same pivots. -/
theorem persists_solveStage (stage : Stage) {rule : Rule}
    (hrule : ∀ {T U : Tableau}, T.PartOf U → ∀ B, Persists Eq (rule T B) (rule U B))
    (unbounded : Basis → Solution) :
    Persists Solved.PartOf (solveStage A stage rule unbounded budget S T)
      (solveStage A stage rule unbounded budget S U) := by
  unfold solveStage
  rw [h.columns]
  refine (persists_startingBasis h S).bind_same fun start => ?_
  cases start with
  | error e => exact .pure ⟨rfl, h⟩
  | ok B =>
      refine (persists_runStage hrule stage h budget B).bind fun run run' hrun => ?_
      refine (persists_stageSolution hrun unbounded T.columns).bind_same fun solution => ?_
      exact .pure ⟨rfl, hrun.tableau⟩

/-- Both phases have the same answer on both tableaux. -/
theorem persists_solveTwoPhase :
    Persists Solved.PartOf (solveTwoPhase A budget T) (solveTwoPhase A budget U) := by
  unfold solveTwoPhase
  rw [h.columns]
  refine (Tableau.persists_phaseOne h budget ⟨[]⟩).bind fun first first' hfirst => ?_
  rw [hfirst.result, hfirst.basis]
  rcases first.result with e | (_ | _)
  · exact .pure ⟨rfl, hfirst.tableau⟩
  · refine (Tableau.persists_primalSimplex hfirst.tableau budget first.basis).bind fun run run' hrun => ?_
    refine (persists_stageSolution hrun .unbounded T.columns).bind_same fun solution => ?_
    exact .pure ⟨rfl, hrun.tableau⟩
  · exact .pure ⟨rfl, hfirst.tableau⟩

/-- A solve that makes no cuts has the same answer on every larger tableau, unless it leaves the data. -/
theorem persists_solve (hmethod : S.method ≠ .cuttingPlane) :
    Persists Solved.PartOf (S.solve A budget T) (S.solve A budget U) := by
  unfold solve
  cases hS : S.method with
  | simplex => exact persists_solveStage h S budget .primal Tableau.persists_primalRule .unbounded
  | twoPhase => exact persists_solveTwoPhase h budget
  | dualSimplex =>
      exact persists_solveStage h S budget .dual Tableau.persists_dualRule fun _ => .infeasible 0
  | cuttingPlane => exact absurd hS hmethod

end Solver
end ExactSimplex
