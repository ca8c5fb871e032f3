import ExactSimplex.Proofs.Simplex.Stages
import ExactSimplex.Proofs.Solver.Methods

/-!
# Failures leave the tableau as it was

A solve works in place.  Phase one does its work on a tableau of its own and writes to the given one only
after its last test; a starting basis is tested or searched for before the first pivot.  So a solve that ends
with a failure, or finds no feasible point before any cut, has not written anything.  This is a matter of
the order of the steps, whatever becomes of the values.

Main results:

- Theorem {lit}`Tableau.cuttingPlane_unchanged`: a failed cutting plane run leaves its state as it was.
- Theorem {lit}`Solver.failed_unchanged`: a failed solve, and a failed stage, leave everything as it was.
-/

namespace ExactSimplex

open Calc

variable {A : Arithmetic} {budget : ℕ} {S : Solver} {T : Tableau} {B : Basis} {solved : Solved}
  {solution : Solution}

/-- The failures that a solve can end with; the others belong to the construction of a tableau. -/
def SolveError.EndsSolve : SolveError → Prop
  | invalidBasis _ => True
  | noStartingBasis => True
  | notFullRank _ => True
  | _ => False

/-! ## Stages -/

/-- The only failure of phase one is a redundant constraint. -/
theorem Tableau.phaseOne_error {run : Run (Except SolveError Feasibility)} {e : SolveError}
    (h : T.phaseOne A budget B = .ok run) (hresult : run.result = .error e) : e.EndsSolve := by
  rcases Tableau.phaseOne_parts h with ⟨_, _, _, _, -, -, -, -, hend⟩
  cases hend with
  | infeasible _ => cases hresult
  | dependent _ _ _ =>
      cases hresult
      trivial
  | feasible _ _ _ _ _ _ => cases hresult

/-- A cutting plane run that fails has failed in phase one, which left its state as it was. -/
theorem Tableau.cuttingPlane_unchanged {run : Run (Except SolveError IntegerStatus)} {e : SolveError}
    (h : T.cuttingPlane A budget B = .ok run) (hresult : run.result = .error e) :
    e.EndsSolve ∧ run.tableau = T ∧ run.basis = B := by
  rcases cutFromStart_of_cuttingPlane h with ⟨inner, hinner, hsame, htableau, hbasis⟩
  rcases cutFromStart_error hinner (hsame ▸ hresult) with ⟨first, hfirst, hfailed, rfl⟩
  have hne : first.result ≠ .ok .feasible := by simp [hfailed]
  rcases phaseOne_unchanged hfirst hne with ⟨hT, hB⟩
  refine ⟨phaseOne_error hfirst hfailed, ?_, ?_⟩
  · rw [htableau, hT]
  · rw [hbasis, hB]

/-! ## Methods -/

namespace Solver

/-- A failure leaves the given tableau as it was.  So does an answer that there is no feasible point, where
it comes from phase one or from cutting planes before any cut. -/
structure FailsUnchanged (S : Solver) (T : Tableau) (solved : Solved) : Prop where
  error : ∀ e, solved.result = .error e → e.EndsSolve ∧ solved.tableau = T
  infeasible : ∀ solution, solved.result = .ok solution → solution.status = .infeasible →
    (S.method = .twoPhase ∨ S.method = .cuttingPlane ∧ solution.cuts = 0) → solved.tableau = T

/-- A starting basis is refused or not found before anything is done. -/
theorem startingBasis_error {e : SolveError} (h : startingBasis A S T = .ok (.error e)) :
    e.EndsSolve := by
  unfold startingBasis at h
  cases hbasis : S.basis with
  | some given =>
      rw [hbasis] at h
      rcases bind_eq_ok.mp h with ⟨defect, -, h⟩
      cases defect <;> cases pure_eq_ok.mp h
      trivial
  | none =>
      rw [hbasis] at h
      rcases bind_eq_ok.mp h with ⟨found, -, h⟩
      cases found <;> cases pure_eq_ok.mp h
      trivial

/-- The primal method never reports that there is no feasible point. -/
theorem stageSolution_status {columns : ℕ} {run : Run SimplexStatus}
    (h : stageSolution A .unbounded columns run = .ok solution) : solution.status ≠ .infeasible := by
  rcases stageSolution_cases h with ⟨-, hoptimal⟩ | ⟨-, rfl⟩
  · have hoptimal := Solution.isOptimal_optimal hoptimal
    intro hstatus
    simp [Solution.isOptimal, hstatus] at hoptimal
  · simp [Solution.unbounded]

/-- Cutting planes report the number of constraints that were added. -/
theorem integerSolution_infeasible {columns constraints : ℕ} {status : IntegerStatus}
    (h : integerSolution A columns constraints status T B = .ok solution)
    (hstatus : solution.status = .infeasible) :
    status = .infeasible ∧ solution.cuts = T.constraints - constraints := by
  cases status with
  | optimal =>
      have hoptimal := Solution.isOptimal_optimal h
      simp [Solution.isOptimal, hstatus] at hoptimal
  | unbounded =>
      cases pure_eq_ok.mp h
      cases hstatus
  | infeasible =>
      cases pure_eq_ok.mp h
      exact ⟨rfl, rfl⟩

/-- A method of one stage fails only where it finds no start. -/
theorem solveStage_unchanged {stage : Stage} {rule : Rule} {unbounded : Basis → Solution}
    (htwoPhase : S.method ≠ .twoPhase) (hcuts : S.method ≠ .cuttingPlane)
    (h : solveStage A stage rule unbounded budget S T = .ok solved) : S.FailsUnchanged T solved := by
  refine ⟨fun e he => ?_, fun solution _ _ hcases => by simp [htwoPhase, hcuts] at hcases⟩
  rcases solveStage_cases h with ⟨e', hstart, rfl⟩ | ⟨B, run, solution, -, -, -, rfl⟩
  · cases he
    exact ⟨startingBasis_error hstart, rfl⟩
  · cases he

/-- Phase one writes to the tableau only after its last test. -/
theorem solveTwoPhase_unchanged (h : solveTwoPhase A budget T = .ok solved) :
    S.FailsUnchanged T solved := by
  rcases solveTwoPhase_cases h with
    ⟨first, hfirst, ⟨e, hresult, rfl⟩ | ⟨hresult, rfl⟩ | ⟨run, solution, -, -, hsolution, rfl⟩⟩
  · refine ⟨fun e' he' => ?_, fun solution hsolution => by cases hsolution⟩
    cases he'
    exact ⟨Tableau.phaseOne_error hfirst hresult,
      (Tableau.phaseOne_unchanged hfirst (by simp [hresult])).1⟩
  · exact ⟨fun e he => (by cases he),
      fun _ _ _ _ => (Tableau.phaseOne_unchanged hfirst (by simp [hresult])).1⟩
  · refine ⟨fun e he => (by cases he), fun reported hreported hstatus => ?_⟩
    cases hreported
    exact absurd hstatus (stageSolution_status hsolution)

/-- Without a cut, cutting planes only fail or find no point where phase one does. -/
theorem solveInteger_unchanged (hmethod : S.method = .cuttingPlane)
    (h : solveInteger A budget T = .ok solved) : S.FailsUnchanged T solved := by
  rcases solveInteger_cases h with
    ⟨run, hrun, ⟨e, hresult, rfl⟩ | ⟨status, solution, hresult, hsolution, rfl⟩⟩
  · refine ⟨fun e' he' => ?_, fun solution hsolution => by cases hsolution⟩
    cases he'
    rcases Tableau.cuttingPlane_unchanged hrun hresult with ⟨hends, htableau, -⟩
    exact ⟨hends, htableau⟩
  · refine ⟨fun e he => (by cases he), fun reported hreported hstatus hcases => ?_⟩
    cases hreported
    rcases integerSolution_infeasible hsolution hstatus with ⟨rfl, hcuts⟩
    rcases Tableau.cutFromStart_of_cuttingPlane hrun with ⟨inner, hinner, hsame, htableau, -⟩
    have hgrown := Tableau.cutFromStart_infeasible hinner (hsame ▸ hresult)
    rw [← htableau] at hgrown
    refine hgrown.resolve_right fun hlt => ?_
    -- A further constraint would have been reported as a cut.
    have hzero : solution.cuts = 0 := by simpa [hmethod] using hcases
    omega

/-- A solve that fails, or finds no feasible point before any cut, leaves the tableau as it was.  Phase one
leaves tableau and basis as they were unless it finds a feasible basis, and cutting planes do so when they
fail. -/
theorem failed_unchanged (A : Arithmetic) (budget : ℕ) (S : Solver) (T : Tableau) :
    (∀ solved, S.solve A budget T = .ok solved → S.FailsUnchanged T solved) ∧
      ∀ B : Basis,
        (∀ run, T.phaseOne A budget B = .ok run → run.result ≠ .ok .feasible →
          run.tableau = T ∧ run.basis = B) ∧
        ∀ run e, T.cuttingPlane A budget B = .ok run → run.result = .error e →
          run.tableau = T ∧ run.basis = B := by
  refine ⟨fun solved h => ?_, fun B => ⟨fun run hrun hresult => ?_, fun run e hrun hresult => ?_⟩⟩
  · unfold solve at h
    cases hmethod : S.method <;> rw [hmethod] at h
    · exact solveStage_unchanged (by simp [hmethod]) (by simp [hmethod]) ((solvePrimal_eq ..).symm.trans h)
    · exact solveTwoPhase_unchanged h
    · exact solveStage_unchanged (by simp [hmethod]) (by simp [hmethod]) ((solveDual_eq ..).symm.trans h)
    · exact solveInteger_unchanged hmethod h
  · exact Tableau.phaseOne_unchanged hrun hresult
  · exact (Tableau.cuttingPlane_unchanged hrun hresult).2

/-- A feasible program that phase one takes for infeasible in words of 32 bits. -/
def misjudged : Tableau where
  columns := 2
  constraints := 2
  entries := #[⟨0, 1⟩, ⟨1, 1⟩, ⟨1, 1⟩, ⟨1, 1⟩, ⟨1, 1⟩, ⟨1, 1⟩, ⟨65536, 1⟩, ⟨1, 1⟩, ⟨65537, 1⟩]

/-- A program with the same constraint twice. -/
def doubled : Tableau where
  columns := 2
  constraints := 2
  entries := #[⟨0, 1⟩, ⟨1, 1⟩, ⟨1, 1⟩, ⟨1, 1⟩, ⟨2, 1⟩, ⟨2, 1⟩, ⟨1, 1⟩, ⟨2, 1⟩, ⟨2, 1⟩]

/-- The wrong verdict of an overflowing phase one, and the late failure of cutting planes on a redundant
row, leave tableau and basis as they were. -/
theorem failed_unchanged_misjudged :
    (∃ solved, (⟨.twoPhase, none⟩ : Solver).solve (.wrapping 32) 9 misjudged = .ok solved ∧
        solved.result = .ok (.infeasible 0) ∧ solved.tableau = misjudged) ∧
      (∃ run, misjudged.phaseOne (.wrapping 32) 9 ⟨[1, 2]⟩ = .ok run ∧ run.result = .ok .infeasible ∧
        run.tableau = misjudged ∧ run.basis = ⟨[1, 2]⟩) ∧
        ∃ run, doubled.cuttingPlane (.wrapping 32) 9 ⟨[1, 2]⟩ = .ok run ∧
          run.result = .error (.notFullRank 2) ∧ run.tableau = doubled ∧ run.basis = ⟨[1, 2]⟩ := by
  have hsolve : ((⟨.twoPhase, none⟩ : Solver).solve (.wrapping 32) 9 misjudged).map Solved.result =
      .ok (.ok (.infeasible 0)) := by
    decide +kernel
  have hphase : (misjudged.phaseOne (.wrapping 32) 9 ⟨[1, 2]⟩).map Run.result =
      .ok (.ok .infeasible) := by
    decide +kernel
  have hcut : (doubled.cuttingPlane (.wrapping 32) 9 ⟨[1, 2]⟩).map Run.result =
      .ok (.error (.notFullRank 2)) := by
    decide +kernel
  rcases failed_unchanged (.wrapping 32) 9 ⟨.twoPhase, none⟩ misjudged with ⟨hsolved, hstages⟩
  rcases map_eq_ok.mp hsolve with ⟨solved, hsolve, hresult⟩
  rcases map_eq_ok.mp hphase with ⟨first, hphase, hfirst⟩
  rcases map_eq_ok.mp hcut with ⟨run, hcut, hfailed⟩
  refine ⟨⟨solved, hsolve, hresult, ?_⟩, ⟨first, hphase, hfirst, ?_⟩, run, hcut, hfailed, ?_⟩
  · exact (hsolved solved hsolve).infeasible _ hresult rfl (Or.inl rfl)
  · exact (hstages ⟨[1, 2]⟩).1 first hphase (by simp [hfirst])
  · exact ((failed_unchanged (.wrapping 32) 9 ⟨.cuttingPlane, none⟩ doubled).2 _).2 run _ hcut hfailed

end Solver
end ExactSimplex
