import ExactSimplex.Proofs.Simplex.PhaseOne
import ExactSimplex.Solver.Solve
import Mathlib.LinearAlgebra.LinearIndependent.Lemmas

/-!
# The two-phase solver decides linear programs

Phase one followed by the primal method ends on every well formed tableau, and its answer is right: an
optimum is a cheapest nonnegative solution, and every other answer tells why there is none or that the
rows depend on each other.

Main results:

- Theorem {lit}`PrimalState.optimum`: the basic point of an optimal state is an optimum.
- Theorem {lit}`PrimalState.primalSolution`: what is read off the end of the primal method is right.
- Theorem {lit}`Solver.solve_twoPhase`: the two-phase solver ends with a right answer.
-/

namespace ExactSimplex

open Finset Fraction

/-! ## Right answers -/

/-- The listed values are a cheapest nonnegative solution, of cost `z`. -/
structure Values.Optimum (M : Values) (m n : ℕ) (values : List Fraction) (z : Fraction) : Prop where
  length : values.length = n
  nonneg : Nonneg n (Tableau.pointOf values)
  satisfies : M.Satisfies m n (Tableau.pointOf values)
  cost : M.cost n (Tableau.pointOf values) = z.toRat
  least : ∀ x, Nonneg n x → M.Satisfies m n x → z.toRat ≤ M.cost n x

/-- What a right solution says about the program. -/
def Values.Solves (M : Values) (m n : ℕ) (solution : Solution) : Prop :=
  match solution.status with
  | .optimal => ∃ z, solution.objectiveValue = some z ∧ M.Optimum m n solution.values z
  | .infeasible => ∀ x, Nonneg n x → ¬M.Satisfies m n x
  | .unbounded => ∀ K, ∃ x, Nonneg n x ∧ M.Satisfies m n x ∧ M.cost n x < K

/-- The coefficients of the constraint rows. -/
def Tableau.coefficients (T : Tableau) (i : Fin T.constraints) (j : Fin T.columns) : ℚ :=
  T.values (i + 1) (j + 1)

/-- The answer of a solver decides the program of a tableau: a solution is right, and the only error
reports dependent rows of a program with a solution. -/
def Tableau.DecidedBy (T : Tableau) : Except SolveError Solution → Prop
  | .ok solution => T.values.Solves T.constraints T.columns solution
  | .error (.notFullRank _) =>
      (∃ x, Nonneg T.columns x ∧ T.Satisfies x) ∧ ¬LinearIndependent ℚ T.coefficients
  | .error _ => False

variable {m n : ℕ} {M : Values} {T : Tableau}

/-- A nontrivial vanishing combination makes the rows linearly dependent. -/
theorem Values.Dependent.not_linearIndependent
    (hdependent : T.values.Dependent T.constraints T.columns) :
    ¬LinearIndependent ℚ T.coefficients := by
  rcases hdependent with ⟨c, ⟨k, hk, hkm, hne⟩, hvanish⟩
  rw [Fintype.not_linearIndependent_iff]
  refine ⟨fun i => c (i + 1), ?_, ⟨k - 1, by omega⟩, ?_⟩
  · funext j
    have hsum := hvanish (j + 1) (by omega) (by omega)
    have hshift := sum_range_succ' (fun i => c i * T.values i (j + 1)) T.constraints
    rw [Values.sum_columns, hsum, add_zero] at hshift
    have hzero : ∑ i ∈ range T.constraints, c (i + 1) * T.values (i + 1) (j + 1) = 0 := by
      linarith
    rw [← Fin.sum_univ_eq_sum_range fun i => c (i + 1) * T.values (i + 1) (j + 1)] at hzero
    rw [Finset.sum_apply]
    exact hzero
  · have hplace : k - 1 + 1 = k := by omega
    simpa [hplace] using hne

/-! ## The primal method -/

/-- An optimal state shows an optimum. -/
theorem PrimalState.optimum {s : State} (hs : PrimalState m n M s) (hpos : BasicPos m s)
    (hverdict : PrimalVerdict m n s.1.values .optimal) :
    ∃ values z, s.1.basicSolution s.2 = .ok values ∧ s.1.objectiveValue .exact = .ok z ∧
      M.Optimum m n (values.take n) z := by
  rcases hs.basicSolution hpos le_rfl with ⟨values, hvalues, hlength, hsame⟩
  have hsat := hs.satisfies_basicPoint hpos
  refine ⟨values, _, hvalues, hs.tableau.objectiveValue, hlength, fun j hj hjn => ?_,
    hsat.congr hsame, ?_, fun x hx hxsat => ?_⟩
  · rw [hsame j hj hjn]
    exact Values.basicPoint_nonneg hs.rhs_nonneg j
  · rw [M.cost_congr hsame, toRat_ofRat]
    exact hs.cost_basicPoint hpos
  · rw [toRat_ofRat]
    exact hs.cost_le hverdict hx hxsat

/-- What is read off the end of the primal method is right. -/
theorem PrimalState.primalSolution {run : Run SimplexStatus}
    (hs : PrimalState m n M (run.tableau, run.basis)) (hpos : BasicPos m (run.tableau, run.basis))
    (hverdict : PrimalVerdict m n run.tableau.values run.result) :
    ∃ solution, Solver.primalSolution .exact n run = .ok solution ∧ M.Solves m n solution := by
  unfold Solver.primalSolution
  cases hresult : run.result with
  | unbounded =>
      rw [hresult] at hverdict
      exact ⟨_, rfl, hs.unbounded hpos hverdict⟩
  | optimal =>
      rw [hresult] at hverdict
      rcases hs.optimum hpos hverdict with ⟨values, z, hvalues, hobjective, hoptimum⟩
      refine ⟨⟨.optimal, some z, run.basis, values.take n, 0⟩, ?_, z, rfl, hoptimum⟩
      simp [Solution.optimal, hvalues, hobjective, bind, Except.bind, pure, Except.pure]

/-! ## The solver -/

/-- The two-phase solver ends on every well formed tableau, and its answer decides the program. -/
theorem Solver.solve_twoPhase {T : Tableau} (hT : T.WellFormed) (given : Option Basis) :
    ∃ solved, Ends (fun budget => Solver.solve .exact budget ⟨.twoPhase, given⟩ T) solved ∧
      T.DecidedBy solved.result := by
  rcases hT.represents.phaseOne ⟨[]⟩ with ⟨⟨result, U, C, events⟩, hfirst, hanswer⟩
  unfold PhaseOneAnswer at hanswer
  rcases result with e | status
  · refine ⟨⟨.error e, U, events⟩, hfirst.bind (.of_ok fun _ => rfl), ?_⟩
    cases e with
    | notFullRank row => exact ⟨hanswer.1, hanswer.2.not_linearIndependent⟩
    | _ => exact hanswer
  · cases status with
    | infeasible => exact ⟨⟨.ok (.infeasible 0), U, events⟩, hfirst.bind (.of_ok fun _ => rfl), hanswer⟩
    | feasible =>
        rcases hanswer with ⟨hs, hpos⟩
        rcases hs.exists_run hpos with ⟨run, hrun, hlast, hlastPos, hverdict⟩
        rcases hlast.primalSolution hlastPos hverdict with ⟨solution, hsolution, hsolves⟩
        refine ⟨⟨.ok solution, run.tableau, events ++ run.events⟩,
          hfirst.bind (hrun.bind (.of_ok fun _ => ?_)), hsolves⟩
        simp [hsolution, bind, Except.bind, pure, Except.pure]

/-- A tableau with a negative right-hand side, a redundant row and no identity. -/
def redundant : Tableau where
  columns := 2
  constraints := 3
  entries := #[⟨1, 2⟩, ⟨1, 1⟩, ⟨-2, 1⟩, ⟨-3, 2⟩, ⟨-1, 1⟩, ⟨-1, 1⟩, ⟨1, 1⟩, ⟨1, 1⟩, ⟨0, 1⟩,
    ⟨5, 2⟩, ⟨2, 1⟩, ⟨1, 1⟩]

/-- A program with a redundant constraint is decided, too. -/
theorem Solver.solve_twoPhase_redundant :
    ∃ solved, Ends (fun budget => Solver.solve .exact budget ⟨.twoPhase, none⟩ redundant) solved ∧
      redundant.DecidedBy solved.result :=
  Solver.solve_twoPhase (by decide) none

end ExactSimplex
