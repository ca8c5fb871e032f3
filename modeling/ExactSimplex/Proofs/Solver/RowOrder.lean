import ExactSimplex.Proofs.Simplex.RowOrder
import ExactSimplex.Proofs.Solver.Optima
import ExactSimplex.Proofs.Solver.Methods

/-!
# The order of the constraints

The basis that is searched for, the runs of both methods, and the point that is read off the last tableau
go along with the rows.  So the answer to a program does not depend on the order in which its constraints
are listed; only the basis and the tableau that are left come in the other order.

Main results:

- Theorem {lit}`CanonicalState.optimal_reorder`: the optimum that is read off a canonical tableau.
- Theorem {lit}`Solver.solveStage_reorder`: a method of one stage from the basis that is searched for.
- Theorem {lit}`Solver.solve_rowOrder`: runs and answers in another order of the rows.
-/

namespace ExactSimplex

variable {m n : ℕ} {M : Values} {s : State} (ρ : RowOrder m)

/-- A solution whose basis lists another order of the rows. -/
def Solution.reorder (solution : Solution) : Solution :=
  { solution with basis := solution.basis.reorder ρ }

/-- The answer of a solve in another order of the rows: the error stays, or the status, the objective value,
the values and the number of cuts. -/
def Solved.reorder (solved : Solved) : Solved where
  result := solved.result.map (Solution.reorder ρ)
  tableau := solved.tableau.reorder ρ
  events := solved.events.map (Event.reorder ρ)

/-! ## Solutions -/

section Solutions

variable (hs : CanonicalState m n M s) (hpos : BasicPos m s)

include hs hpos

/-- The values and the objective value stay. -/
theorem CanonicalState.optimal_reorder (columns cuts : ℕ) :
    Solution.optimal .exact (s.1.reorder ρ) (s.2.reorder ρ) columns cuts =
      (Solution.optimal .exact s.1 s.2 columns cuts).map (Solution.reorder ρ) := by
  have hposReordered : ∀ i, 1 ≤ i → i ≤ m → 1 ≤ (s.2.basic ∘ ρ.perm) i := by
    intro i hi him
    rcases ρ.perm_mem hi him with ⟨hrow, hrowm⟩
    exact hpos _ hrow hrowm
  have hvalues := (hs.tableau.reorder ρ).basicSolution (hs.basis.reorder ρ) (hs.canonical.reorder ρ)
    hposReordered
  rw [hs.canonical.basicPoint_reorder] at hvalues
  have hobjective := (hs.tableau.reorder ρ).objectiveValue
  rw [Values.reorder, ρ.perm_zero] at hobjective
  unfold Solution.optimal
  rw [hvalues, hobjective, hs.tableau.basicSolution hs.basis hs.canonical hpos, hs.tableau.objectiveValue]
  rfl

/-- The answer that is read off a stage stays. -/
theorem CanonicalState.stageSolution_reorder {unbounded : Basis → Solution}
    (hunbounded : ∀ B, unbounded (B.reorder ρ) = (unbounded B).reorder ρ) (columns : ℕ)
    {run : Run SimplexStatus} (hstate : (run.tableau, run.basis) = s) :
    Solver.stageSolution .exact unbounded columns (run.reorder ρ) =
      (Solver.stageSolution .exact unbounded columns run).map (Solution.reorder ρ) := by
  subst hstate
  unfold Solver.stageSolution
  have hresult : (run.reorder ρ).result = run.result := rfl
  rw [hresult]
  cases run.result with
  | optimal => exact hs.optimal_reorder ρ hpos columns 0
  | unbounded => exact congrArg Except.ok (hunbounded run.basis)

end Solutions

/-! ## Solves -/

namespace Solver

variable {T : Tableau} (method : Method) (budget : ℕ)

/-- The search for a start finds the basis in the other order, or fails in both. -/
theorem startingBasis_reorder (hT : T.Represents m n M) :
    startingBasis .exact ⟨method, none⟩ (T.reorder ρ) =
      (startingBasis .exact ⟨method, none⟩ T).map (Except.map (Basis.reorder ρ)) := by
  unfold startingBasis
  simp only [hT.startingBasis_reorder]
  cases T.startingBasis .exact with
  | error fault => rfl
  | ok found => cases found <;> rfl

/-- A solve by one stage, whose rule does not depend on the order of the rows, goes along with them. -/
theorem solveStage_reorder {stage : Stage} {rule : Rule} (hT : T.WellFormed)
    (ρ : RowOrder T.constraints) (hrule : OrderFree T.constraints T.columns rule)
    (unbounded : Basis → Solution) (hunbounded : ∀ B, unbounded (B.reorder ρ) = (unbounded B).reorder ρ)
    (hends : ∀ {B : Basis} {run : Run SimplexStatus},
      CanonicalState T.constraints T.columns T.values (T, B) → BasicPos T.constraints (T, B) →
      runStage .exact stage rule budget T B = .ok run →
      CanonicalState T.constraints T.columns T.values (run.tableau, run.basis) ∧
        BasicPos T.constraints (run.tableau, run.basis)) :
    solveStage .exact stage rule unbounded budget ⟨method, none⟩ (T.reorder ρ) =
      (solveStage .exact stage rule unbounded budget ⟨method, none⟩ T).map (Solved.reorder ρ) := by
  unfold solveStage
  rw [startingBasis_reorder ρ method hT.represents]
  rcases hstart : startingBasis .exact ⟨method, none⟩ T with fault | e | B
  · rfl
  · rfl
  · rcases startingBasis_canonical hT hstart with ⟨hs, hpos⟩
    have hrun : runStage .exact stage rule budget (T.reorder ρ) (B.reorder ρ) = _ :=
      hrule.runStage_reorder ρ hs stage budget
    have hcolumns : (T.reorder ρ).columns = T.columns := rfl
    simp only [Except.map, bind, Except.bind, hrun, hcolumns]
    cases hinner : runStage .exact stage rule budget T B with
    | error fault => rfl
    | ok run =>
        rcases hends hs hpos hinner with ⟨hlast, hlastPos⟩
        simp only [hlast.stageSolution_reorder ρ hlastPos hunbounded T.columns rfl]
        cases stageSolution .exact unbounded T.columns run <;> rfl

/-- From a canonical basis both methods run on the constraints in another order as on the given ones: they end
within the same budgets with the same status after the same pivots, in the state with its rows in that order.
So do solves that search for their start, with the same answer. -/
theorem solve_rowOrder (hT : T.WellFormed) (ρ : RowOrder T.constraints) :
    (∀ B, T.isCanonical .exact B = .ok true → ∀ budget,
      (T.reorder ρ).primalSimplex .exact budget (B.reorder ρ) =
        (T.primalSimplex .exact budget B).map (Run.reorder ρ) ∧
      (T.reorder ρ).dualSimplex .exact budget (B.reorder ρ) =
        (T.dualSimplex .exact budget B).map (Run.reorder ρ)) ∧
    (∀ run : Run SimplexStatus, (run.reorder ρ).result = run.result ∧
      (run.reorder ρ).events.map Event.record = run.events.map Event.record) ∧
    ∀ method, method = .simplex ∨ method = .dualSimplex → ∀ budget,
      Solver.solve .exact budget ⟨method, none⟩ (T.reorder ρ) =
        (Solver.solve .exact budget ⟨method, none⟩ T).map (Solved.reorder ρ) := by
  refine ⟨fun B hB budget => ?_, fun run => ⟨rfl, run.records_reorder ρ⟩, ?_⟩
  · have hs := hT.canonicalState hB
    exact ⟨hs.primalSimplex_reorder ρ budget, hs.dualSimplex_reorder ρ budget⟩
  · rintro method (rfl | rfl) budget
    · refine solveStage_reorder .simplex budget hT ρ orderFree_primalRule .unbounded (fun _ => rfl) ?_
      exact fun hs hpos hrun => ⟨(hs.of_primal_run hpos hrun).1, (hs.of_primal_run hpos hrun).2.1⟩
    · refine solveStage_reorder .dualSimplex budget hT ρ orderFree_dualRule (fun _ => .infeasible 0)
        (fun _ => rfl) ?_
      exact fun hs hpos hrun => ⟨(hs.of_dual_run hpos hrun).1, (hs.of_dual_run hpos hrun).2.1⟩

/-- The second of two constraints listed first. -/
def secondFirst : RowOrder 2 where
  perm := Equiv.swap 1 2
  keeps i hi := Equiv.swap_apply_of_ne_of_ne (by omega) (by omega)

/-- A program of the dual method with its second constraint listed first. -/
theorem solve_rowOrder_secondFirst :
    dualStart.reorder secondFirst ≠ dualStart ∧
      (∀ budget, (dualStart.reorder secondFirst).dualSimplex .exact budget ⟨[3, 2]⟩ =
        (dualStart.dualSimplex .exact budget ⟨[2, 3]⟩).map (Run.reorder secondFirst)) ∧
      (Solver.solve .exact 5 ⟨.dualSimplex, none⟩ (dualStart.reorder secondFirst)).map
        (fun solved => solved.result) =
        .ok (.ok ⟨.optimal, some ⟨3, 2⟩, ⟨[3, 1]⟩, [⟨1, 2⟩, ⟨0, 1⟩, ⟨5, 2⟩], 0⟩) := by
  obtain ⟨hruns, -, hsolves⟩ := solve_rowOrder (T := dualStart) (by decide) secondFirst
  refine ⟨by decide +kernel, fun budget => (hruns ⟨[2, 3]⟩ (by decide +kernel) budget).2, ?_⟩
  have hanswer := congrArg (Except.map fun solved => solved.result) (hsolves .dualSimplex (Or.inr rfl) 5)
  exact hanswer.trans (by decide +kernel)

end Solver
end ExactSimplex
