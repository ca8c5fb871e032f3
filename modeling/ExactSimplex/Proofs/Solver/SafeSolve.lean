import ExactSimplex.Proofs.Simplex.SoundCuts
import ExactSimplex.Proofs.Solver.Methods

/-!
# Solves in any arithmetic

Every method starts from a basis that was tested or found, and hands sound states from stage to stage.
Hence a solve never leaves the stored data, and the basis of a reported optimum is canonical for the final
tableau, whatever the values in it are.

Main results:

- Theorem {lit}`SoundState.safe_basicSolution`: the values of a sound state can be read off.
- Theorem {lit}`Tableau.Stores.safe_solverStart`: a starting basis makes a sound state.
- Theorem {lit}`Tableau.Stores.safe_solve`: a solve is safe and reports canonical bases.
-/

namespace ExactSimplex

open Calc Fraction

variable {A : Arithmetic} {T : Tableau} {B : Basis} {m n : ℕ} {E : Cells} {s : State}

/-! ## Solutions -/

namespace SoundState

/-- Right-hand sides can be placed at columns of the tableau, by induction on the list of columns. -/
theorem safe_placeBasic (hs : SoundState A m n s) (row : ℕ) (columns : List ℕ)
    (values : List Fraction) (hrows : row + columns.length ≤ m + 1)
    (hcolumns : ∀ c ∈ columns, 1 ≤ c ∧ c ≤ values.length) :
    Safe A (s.1.placeBasic row columns values) fun _ => True := by
  induction columns generalizing row values with
  | nil => exact safe_pure trivial
  | cons c columns ih =>
      rw [List.length_cons] at hrows
      rw [List.forall_mem_cons] at hcolumns
      have hbound : ¬(c = 0 ∨ values.length < c) := by omega
      unfold Tableau.placeBasic
      rw [hs.stores.rhs (by omega)]
      refine safe_ok_bind ?_
      rw [if_neg hbound]
      refine ih (row + 1) _ (by omega) fun d hd => ?_
      rw [List.length_set]
      exact hcolumns.2 d hd

/-- The values of a sound state can be read off. -/
theorem safe_basicSolution (hs : SoundState A m n s) :
    Safe A (s.1.basicSolution s.2) fun _ => True := by
  have hlength : s.2.columns.length = m := hs.basis.size
  refine hs.safe_placeBasic 1 s.2.columns _ (by omega) fun c hc => ?_
  rcases hs.basis.mem_columns.mp hc with ⟨i, hi, him, rfl⟩
  rw [List.length_replicate, hs.stores.columns]
  exact ⟨hs.canonical.basic_pos i hi him, hs.canonical.basic_le i hi him⟩

/-- An optimum is reported with the basis of the state. -/
theorem safe_optimal (hA : A.holds 1 = true) (hs : SoundState A m n (T, B)) (columns cuts : ℕ) :
    Safe A (Solution.optimal A T B columns cuts) fun solution => solution.basis = B := by
  refine hs.safe_basicSolution.bind fun values _ => ?_
  exact (hs.safe_objectiveValue hA).bind fun objective _ => safe_pure rfl

/-- An optimum that is read off the end of a stage has the basis of the last state. -/
theorem safe_stageSolution {run : Run SimplexStatus} (hA : A.holds 1 = true)
    (hrun : SoundState A m n (run.tableau, run.basis)) (unbounded : Basis → Solution)
    (hunbounded : ∀ B, (unbounded B).status ≠ .optimal) (columns : ℕ) :
    Safe A (Solver.stageSolution A unbounded columns run) fun solution =>
      solution.status = .optimal → solution.basis = run.basis := by
  unfold Solver.stageSolution
  cases run.result with
  | optimal => exact (hrun.safe_optimal hA columns 0).imp fun _ h _ => h
  | unbounded => exact safe_pure fun h => absurd h (hunbounded _)

end SoundState

/-- An optimum of cutting planes is read off with the basis of the last state. -/
theorem safe_integerSolution (hA : A.holds 1 = true) (columns constraints : ℕ)
    {status : IntegerStatus} (hs : status = .optimal → ∃ m n, SoundState A m n (T, B)) :
    Safe A (Solver.integerSolution A columns constraints status T B) fun solution =>
      solution.status = .optimal → status = .optimal ∧ solution.basis = B := by
  cases status with
  | optimal =>
      rcases hs rfl with ⟨m, n, hs⟩
      exact (hs.safe_optimal hA columns _).imp fun _ h _ => ⟨rfl, h⟩
  | unbounded => exact safe_pure fun h => by cases h
  | infeasible => exact safe_pure fun h => by cases h

/-! ## Methods -/

/-- A reported optimum has a basis that is canonical for the final tableau. -/
def Solved.EndsCanonical (A : Arithmetic) (solved : Solved) : Prop :=
  ∀ solution, solved.result = .ok solution → solution.status = .optimal →
    CanonicalHead A (solved.tableau, solution.basis)

/-- A solution is reported with the basis of its last state. -/
theorem SoundState.endsCanonical (hA : A.holds 1 = true) (hs : SoundState A m n (T, B))
    {solution : Solution} (hbasis : solution.status = .optimal → solution.basis = B)
    (events : List Event) : Solved.EndsCanonical A ⟨.ok solution, T, events⟩ := by
  intro reported hreported hoptimal
  obtain rfl := Except.ok.inj hreported
  rw [hbasis hoptimal]
  exact hs.canonicalHead hA

/-- An error is no optimum. -/
theorem Solved.endsCanonical_error (A : Arithmetic) (e : SolveError) (T : Tableau)
    (events : List Event) : Solved.EndsCanonical A ⟨.error e, T, events⟩ := by
  intro _ h
  cases h

namespace Tableau.Stores

variable (hA : A.holds 1 = true) (hT : T.Stores A m n E) (budget : ℕ) (S : Solver)

include hA hT

/-- A basis that is given without a defect, or found in the tableau, makes a sound state. -/
theorem safe_solverStart : Safe A (S.startingBasis A T) fun found =>
    ∀ B, found = .ok B → SoundState A m n (T, B) := by
  unfold Solver.startingBasis
  cases S.basis with
  | some B =>
      refine (hT.safe_basisDefect hA).bind fun defect hdefect => ?_
      cases defect with
      | some defect => exact safe_pure fun B h => by cases h
      | none =>
          refine safe_pure fun C hC => ?_
          obtain rfl := Except.ok.inj hC
          exact hT.soundState (hdefect rfl).1 (hdefect rfl).2
  | none =>
      refine (hT.safe_startingBasis hA).bind fun found hfound => ?_
      cases found with
      | none => exact safe_pure fun B h => by cases h
      | some B =>
          refine safe_pure fun C hC => ?_
          obtain rfl := Except.ok.inj hC
          exact hT.soundState (hfound B rfl).1 (hfound B rfl).2

/-- A method of one stage is safe if its rule is sound. -/
theorem safe_solveStage (stage : Stage) {rule : Rule} (hrule : SoundRule A rule)
    (unbounded : Basis → Solution) (hunbounded : ∀ B, (unbounded B).status ≠ .optimal) :
    Safe A (Solver.solveStage A stage rule unbounded budget S T) (Solved.EndsCanonical A) := by
  refine (hT.safe_solverStart hA S).bind fun found hfound => ?_
  cases found with
  | error e => exact safe_pure (Solved.endsCanonical_error A e T [])
  | ok B =>
      refine (hrule.safe_runStage hA budget (hfound B rfl)).bind fun run hrun => ?_
      refine (hrun.safe_stageSolution hA unbounded hunbounded T.columns).bind fun solution hsolution => ?_
      exact safe_pure (hrun.endsCanonical hA hsolution run.events)

/-- Both phases are safe and report canonical bases. -/
theorem safe_solveTwoPhase : Safe A (Solver.solveTwoPhase A budget T) (Solved.EndsCanonical A) := by
  refine (hT.safe_phaseOne hA budget ⟨[]⟩).bind fun first hfirst => ?_
  rcases hresult : first.result with e | (_ | _)
  · exact safe_pure (Solved.endsCanonical_error A e first.tableau first.events)
  · have hs := hfirst hresult
    refine ((soundRule_primalRule hA).safe_runStage hA budget hs).bind fun run hrun => ?_
    rw [Solver.primalSolution_eq]
    refine (hrun.safe_stageSolution hA .unbounded (fun _ => nofun) T.columns).bind
      fun solution hsolution => ?_
    exact safe_pure (hrun.endsCanonical hA hsolution (first.events ++ run.events))
  · refine safe_pure fun solution hsolution hoptimal => ?_
    obtain rfl := Except.ok.inj hsolution
    cases hoptimal

/-- A solve by cutting planes is safe and reports canonical bases. -/
theorem safe_solveInteger : Safe A (Solver.solveInteger A budget T) (Solved.EndsCanonical A) := by
  refine (hT.safe_cuttingPlane hA budget ⟨[]⟩).bind fun run hrun => ?_
  rcases hresult : run.result with e | status
  · exact safe_pure (Solved.endsCanonical_error A e run.tableau run.events)
  · have hs : status = .optimal → ∃ m n, SoundState A m n (run.tableau, run.basis) := fun h =>
      hrun (by rw [hresult, h])
    refine (safe_integerSolution hA T.columns T.constraints hs).bind fun solution hsolution => ?_
    refine safe_pure fun reported hreported hoptimal => ?_
    obtain rfl := Except.ok.inj hreported
    rcases hsolution hoptimal with ⟨hstatus, hbasis⟩
    rcases hs hstatus with ⟨m, n, hs⟩
    rw [hbasis]
    exact hs.canonicalHead hA

/-- A solve is safe, and the basis of an optimum that it reports is canonical. -/
theorem safe_solve : Safe A (S.solve A budget T) (Solved.EndsCanonical A) := by
  unfold Solver.solve
  cases S.method with
  | simplex =>
      exact hT.safe_solveStage hA budget S .primal (soundRule_primalRule hA) .unbounded fun _ => nofun
  | twoPhase => exact hT.safe_solveTwoPhase hA budget
  | dualSimplex =>
      exact hT.safe_solveStage hA budget S .dual (soundRule_dualRule hA) (fun _ => .infeasible 0)
        fun _ => nofun
  | cuttingPlane => exact hT.safe_solveInteger hA budget

end Tableau.Stores
end ExactSimplex
