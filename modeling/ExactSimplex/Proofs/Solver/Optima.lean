import ExactSimplex.Proofs.Simplex.AnyStart
import ExactSimplex.Proofs.Simplex.Stages
import ExactSimplex.Proofs.Solver.Methods
import ExactSimplex.Proofs.Solver.TwoPhase
import ExactSimplex.Proofs.Tableau.GivenBasis

/-!
# Reported optima

A starting identity, given or found, is accepted whatever the signs of the right-hand sides and of the
reduced costs are.  The values that are reported as an optimum always solve the constraints at the
reported cost.  They are nonnegative, and the cost is the least one, as far as the start had the
invariant of the method.

Main results:

- Theorem {lit}`Solver.startingBasis_canonical`: an accepted starting basis is canonical.
- Theorem {lit}`CanonicalState.attains`: the values read off a canonical tableau solve its program.
- Theorem {lit}`Solver.solve_optimal_point`: the optima of the primal method and of cutting planes.
- Theorem {lit}`Solver.solve_dual_optimal`: the optima of the dual method.
-/

namespace ExactSimplex

open Finset Fraction

variable {M₀ M : Values} {m₀ n₀ m n : ℕ} {T : Tableau} {S : Solver} {budget : ℕ} {solved : Solved}
  {solution : Solution}

/-! ## Starting bases -/

/-- A starting basis, given or found, is canonical and consists of variables. -/
theorem Solver.startingBasis_canonical (hT : T.WellFormed) {B : Basis}
    (h : S.startingBasis .exact T = .ok (.ok B)) :
    CanonicalState T.constraints T.columns T.values (T, B) ∧ BasicPos T.constraints (T, B) := by
  unfold Solver.startingBasis at h
  cases hgiven : S.basis with
  | some given =>
      rw [hgiven] at h
      rcases Calc.bind_eq_ok.mp h with ⟨defect, hdefect, h⟩
      cases defect with
      | some defect => cases Calc.pure_eq_ok.mp h
      | none =>
          cases Calc.pure_eq_ok.mp h
          rcases Tableau.basisDefect_eq_none_iff.mp hdefect with ⟨-, hrange, -, hcanonical⟩
          have hs := hT.canonicalState hcanonical
          exact ⟨hs, hs.basicPos fun c hc => (hrange c hc).1⟩
  | none =>
      rw [hgiven] at h
      rcases Calc.bind_eq_ok.mp h with ⟨found, hfound, h⟩
      cases found with
      | none => cases Calc.pure_eq_ok.mp h
      | some found =>
          cases Calc.pure_eq_ok.mp h
          rcases hT.represents.startingBasis hfound with ⟨hB, hcanonical, hpos⟩
          exact ⟨⟨hT.represents, hB, hcanonical, .refl _ _ _⟩, hpos⟩

/-! ## Values read off a tableau -/

/-- The listed values solve the constraints, with any signs, at the cost `z`. -/
structure Values.Attains (M : Values) (m n : ℕ) (values : List Fraction) (z : Fraction) : Prop where
  length : values.length = n
  satisfies : M.Satisfies m n (Tableau.pointOf values)
  cost : M.cost n (Tableau.pointOf values) = z.toRat

/-- The values read off a canonical tableau solve the program that it tightens, at the shown cost; they
are nonnegative if the right-hand sides are. -/
theorem CanonicalState.attains {s : State} (hs : CanonicalState m n s.1.values s)
    (hpos : BasicPos m s) (htightens : M₀.Tightens m₀ n₀ s.1.values m n) {cuts : ℕ}
    (h : Solution.optimal .exact s.1 s.2 n₀ cuts = .ok solution) :
    solution.cuts = cuts ∧
      (∃ z, solution.objectiveValue = some z ∧ z.toRat = -s.1.values 0 0 ∧
        M₀.Attains m₀ n₀ solution.values z) ∧
      ((∀ i, 1 ≤ i → i ≤ m → 0 ≤ s.1.values i 0) →
        Nonneg n₀ (Tableau.pointOf solution.values)) := by
  rcases hs.basicSolution hpos htightens.columns_le with ⟨values, hvalues, hlength, hsame⟩
  have hsat := hs.satisfies_basicPoint hpos
  unfold Solution.optimal at h
  rw [hvalues, hs.tableau.objectiveValue] at h
  cases Calc.pure_eq_ok.mp h
  refine ⟨rfl, ⟨_, rfl, toRat_ofRat _, hlength, (htightens.satisfies _ hsat).congr hsame, ?_⟩,
    fun hrhs j hj hjn => ?_⟩
  · rw [M₀.cost_congr hsame, htightens.cost _ hsat, toRat_ofRat]
    exact hs.cost_basicPoint hpos
  · rw [hsame j hj hjn]
    exact Values.basicPoint_nonneg hrhs j

/-! ## The primal method and cutting planes -/

/-- The start is a feasible basis: phase one looks for one, or every right-hand side is nonnegative. -/
def Solver.StartsFeasible (S : Solver) (T : Tableau) : Prop :=
  (S.method = .cuttingPlane ∧ T.startingBasis .exact = .ok none) ∨
    ∀ i, 1 ≤ i → i ≤ T.constraints → 0 ≤ T.values i 0

/-- What an optimum of the primal method says. -/
theorem Solver.solvePrimal_point (hT : T.WellFormed)
    (h : S.solvePrimal .exact budget T = .ok solved) (hresult : solved.result = .ok solution)
    (hstatus : solution.status = .optimal) :
    (∃ z, T.values.Attains T.constraints T.columns solution.values z) ∧ solution.cuts = 0 ∧
      ((∀ i, 1 ≤ i → i ≤ T.constraints → 0 ≤ T.values i 0) →
        Nonneg T.columns (Tableau.pointOf solution.values)) := by
  have hstage := (Solver.solvePrimal_eq ..).symm.trans h
  rcases Solver.solveStage_optimal hstage (fun _ => nofun) hresult hstatus with
    ⟨B, run, hstart, hrun, hoptimal, hshown, -⟩
  rcases Solver.startingBasis_canonical hT hstart with ⟨hs, hpos⟩
  have hlast := hs.cutState_of_run hpos hrun hoptimal
  rcases hlast.attains hlast.basic_pos hlast.tightens hshown with ⟨hcuts, ⟨z, -, -, hattains⟩, hnonneg⟩
  refine ⟨⟨z, hattains⟩, hcuts, fun hrhs => hnonneg ?_⟩
  have hfeasible : PrimalState T.constraints T.columns T.values (T, B) := ⟨hs, hrhs⟩
  exact (hfeasible.of_run hpos hrun).1.rhs_nonneg

/-- An optimal answer of the stage ends in a state that is ready for cuts; its right-hand sides are
nonnegative if the stage starts from a feasible basis or made a cut. -/
theorem Tableau.WellFormed.cutFromStart_cutState (hT : T.WellFormed) {B : Basis}
    {run : Run (Except SolveError IntegerStatus)} (h : T.cutFromStart .exact budget B = .ok run)
    (hresult : run.result = .ok .optimal) :
    ∃ m n, CutState T.values T.constraints T.columns m n (run.tableau, run.basis) ∧
      ((T.startingBasis .exact = .ok none ∨
          (∀ i, 1 ≤ i → i ≤ T.constraints → 0 ≤ T.values i 0) ∨ m ≠ T.constraints) →
        ∀ i, 1 ≤ i → i ≤ m → 0 ≤ run.tableau.values i 0) := by
  by_cases hfeasible : T.startingBasis .exact = .ok none ∨
      ∀ i, 1 ≤ i → i ≤ T.constraints → 0 ≤ T.values i 0
  · have hstart : ∀ found, T.startingBasis .exact = .ok (some found) →
        ∀ i, 1 ≤ i → i ≤ T.constraints → 0 ≤ T.values i 0 := by
      intro found hfound
      rcases hfeasible with hnone | hrhs
      · rw [hnone] at hfound
        cases hfound
      · exact hrhs
    rcases hT.cutFromStart hstart h hresult with ⟨m, n, hlast, -⟩
    exact ⟨m, n, hlast.cutState, fun _ => hlast.rhs_nonneg⟩
  · rw [not_or] at hfeasible
    rcases Tableau.cutFromStart_cases h with ⟨found, inner, hfound, hinner, rfl⟩ | ⟨_, hnone, -⟩
    · rcases hT.represents.startingBasis hfound with ⟨hB, hcanonical, hpos⟩
      have hs : CanonicalState T.constraints T.columns T.values (T, found) :=
        ⟨hT.represents, hB, hcanonical, .refl _ _ _⟩
      rcases hs.relaxAndCut hpos hinner (Except.ok.inj hresult) with ⟨m, n, hlast, hrhs⟩
      refine ⟨m, n, hlast, fun hcases => ?_⟩
      rcases hcases with hnone | hstart | hcut
      · exact absurd hnone hfeasible.1
      · exact absurd hstart hfeasible.2
      · exact hrhs.resolve_left hcut
    · exact absurd hnone hfeasible.1

/-- What an optimum of cutting planes says. -/
theorem Solver.solveInteger_point (hT : T.WellFormed)
    (h : Solver.solveInteger .exact budget T = .ok solved) (hresult : solved.result = .ok solution)
    (hstatus : solution.status = .optimal) :
    (∃ z, T.values.Attains T.constraints T.columns solution.values z) ∧
      ((T.startingBasis .exact = .ok none ∨
          (∀ i, 1 ≤ i → i ≤ T.constraints → 0 ≤ T.values i 0) ∨ 0 < solution.cuts) →
        Nonneg T.columns (Tableau.pointOf solution.values)) := by
  rcases Solver.solveInteger_optimal h hresult hstatus with ⟨run, hrun, hrunResult, hshown, -⟩
  rcases Tableau.cutFromStart_of_cuttingPlane hrun with ⟨inner, hinner, hinnerResult, hU, hC⟩
  rcases hT.cutFromStart_cutState hinner (hinnerResult.symm.trans hrunResult) with ⟨m, n, hlast, hrhs⟩
  rw [← hU, ← hC] at hlast
  rw [← hU] at hrhs
  rcases hlast.attains hlast.basic_pos hlast.tightens hshown with ⟨hcuts, ⟨z, -, -, hattains⟩, hnonneg⟩
  refine ⟨⟨z, hattains⟩, fun hcases => hnonneg (hrhs ?_)⟩
  -- A reported cut means that the final tableau has more rows than the given one.
  refine hcases.imp_right (Or.imp_right fun hpositive => ?_)
  rw [hcuts, hlast.tableau.constraints] at hpositive
  omega

/-- The values of an optimum solve the constraints.  They are nonnegative if the method starts from a
feasible basis, or if a cut was made. -/
theorem Solver.solve_optimal_point (hT : T.WellFormed)
    (hmethod : S.method = .simplex ∨ S.method = .cuttingPlane)
    (hsolve : S.solve .exact budget T = .ok solved) (hresult : solved.result = .ok solution)
    (hstatus : solution.status = .optimal) :
    solution.values.length = T.columns ∧ T.Satisfies (Tableau.pointOf solution.values) ∧
      (S.StartsFeasible T ∨ 0 < solution.cuts →
        Nonneg T.columns (Tableau.pointOf solution.values)) := by
  unfold Solver.solve at hsolve
  rcases hmethod with hmethod | hmethod
  · rw [hmethod] at hsolve
    rcases Solver.solvePrimal_point hT hsolve hresult hstatus with ⟨⟨z, hattains⟩, hcuts, hnonneg⟩
    refine ⟨hattains.length, hattains.satisfies, fun hcases => hnonneg ?_⟩
    rcases hcases with (⟨hcutting, -⟩ | hrhs) | hpositive
    · rw [hmethod] at hcutting
      cases hcutting
    · exact hrhs
    · omega
  · rw [hmethod] at hsolve
    rcases Solver.solveInteger_point hT hsolve hresult hstatus with ⟨⟨z, hattains⟩, hnonneg⟩
    refine ⟨hattains.length, hattains.satisfies, fun hcases => hnonneg ?_⟩
    rcases hcases with (⟨-, hnone⟩ | hrhs) | hpositive
    · exact Or.inl hnone
    · exact Or.inr (Or.inl hrhs)
    · exact Or.inr (Or.inr hpositive)

/-- An optimum after a cut is a nonnegative solution of the given constraints. -/
theorem Solver.solve_optimal_point_halves :
    ∃ solved solution, Solver.solve .exact 5 ⟨.cuttingPlane, none⟩ halves = .ok solved ∧
      solved.result = .ok solution ∧ solution.status = .optimal ∧ 0 < solution.cuts ∧
      halves.Satisfies (Tableau.pointOf solution.values) ∧
      Nonneg 2 (Tableau.pointOf solution.values) := by
  have hanswer : (Solver.solve .exact 5 ⟨.cuttingPlane, none⟩ halves).map (fun solved =>
      solved.result) =
      .ok (.ok ⟨.optimal, some ⟨-1, 1⟩, ⟨[1, 2]⟩, [⟨1, 1⟩, ⟨1, 1⟩], 1⟩) := by
    decide +kernel
  rcases Calc.map_eq_ok.mp hanswer with ⟨solved, hsolve, hresult⟩
  obtain ⟨-, hsat, hnonneg⟩ :=
    Solver.solve_optimal_point (T := halves) (by decide) (Or.inr rfl) hsolve hresult rfl
  exact ⟨solved, _, hsolve, hresult, rfl, Nat.one_pos, hsat, hnonneg (Or.inr Nat.one_pos)⟩

/-- A tableau with an identity whose right-hand side is negative; its program has the optimum `(0, 1)`
of cost one. -/
def negativeIdentity : Tableau where
  columns := 2
  constraints := 1
  entries := #[⟨0, 1⟩, ⟨0, 1⟩, ⟨1, 1⟩, ⟨-1, 1⟩, ⟨1, 1⟩, ⟨-1, 1⟩]

/-- From an identity that is not feasible, a point with a negative value is reported as an optimum. -/
theorem Solver.solve_negativeIdentity {method : Method}
    (hmethod : method = .simplex ∨ method = .cuttingPlane) :
    (Solver.solve .exact 1 ⟨method, none⟩ negativeIdentity).map (fun solved => solved.result) =
      .ok (.ok ⟨.optimal, some ⟨0, 1⟩, ⟨[1]⟩, [⟨-1, 1⟩, ⟨0, 1⟩], 0⟩) := by
  rcases hmethod with rfl | rfl
  · decide +kernel
  · decide +kernel

/-- Not every optimum of the primal method or of cutting planes is a feasible point. -/
theorem Solver.not_forall_optimum_nonneg :
    ¬∀ (T : Tableau) (S : Solver) (budget : ℕ) (solved : Solved) (solution : Solution),
      T.WellFormed → (S.method = .simplex ∨ S.method = .cuttingPlane) →
      S.solve .exact budget T = .ok solved → solved.result = .ok solution →
      solution.status = .optimal →
      Nonneg T.columns (Tableau.pointOf solution.values) ∧
        T.Satisfies (Tableau.pointOf solution.values) := by
  intro hclaim
  rcases Calc.map_eq_ok.mp (Solver.solve_negativeIdentity (Or.inl rfl)) with ⟨solved, hsolve, hresult⟩
  have hpoint := hclaim negativeIdentity ⟨.simplex, none⟩ 1 solved _ (by decide) (Or.inl rfl) hsolve
    hresult rfl
  have hvalue := hpoint.1 1 le_rfl (by decide)
  norm_num [Tableau.pointOf, toRat] at hvalue

/-! ## The dual method -/

/-- The values of an optimum of the dual method are a nonnegative solution at the reported cost.  It is
the least cost if no reduced cost of the start is negative. -/
theorem Solver.solve_dual_optimal (hT : T.WellFormed) (hmethod : S.method = .dualSimplex)
    (hsolve : S.solve .exact budget T = .ok solved) (hresult : solved.result = .ok solution)
    (hstatus : solution.status = .optimal) :
    ∃ z, solution.objectiveValue = some z ∧
      T.values.Attains T.constraints T.columns solution.values z ∧
      Nonneg T.columns (Tableau.pointOf solution.values) ∧
      ((∀ j, 1 ≤ j → j ≤ T.columns → 0 ≤ T.values 0 j) →
        T.values.Optimum T.constraints T.columns solution.values z) := by
  unfold Solver.solve at hsolve
  rw [hmethod] at hsolve
  have hstage := (Solver.solveDual_eq ..).symm.trans hsolve
  rcases Solver.solveStage_optimal hstage (fun _ => nofun) hresult hstatus with
    ⟨B, run, hstart, hrun, hoptimal, hshown, -⟩
  rcases Solver.startingBasis_canonical hT hstart with ⟨hs, hpos⟩
  rcases hs.of_dual_run hpos hrun with ⟨hlast, hlastPos, hverdict⟩
  rw [hoptimal] at hverdict
  rcases hlast.self.attains hlastPos (.of_equivalent hlast.equivalent) hshown with
    ⟨-, ⟨z, hz, hcorner, hattains⟩, hnonneg⟩
  refine ⟨z, hz, hattains, hnonneg hverdict, fun hcosts => ?_⟩
  have hready : DualState T.constraints T.columns T.values (T, B) := ⟨hs, hcosts⟩
  have hlastCosts := (hready.of_run hpos hrun).1.cost_nonneg
  refine ⟨hattains.length, hnonneg hverdict, hattains.satisfies, hattains.cost, ?_⟩
  intro x hx hsat
  rw [hcorner]
  exact hlast.cost_le hlastCosts hx hsat

/-- A tableau with nonnegative reduced costs and a right-hand side of either sign. -/
def dualStart : Tableau where
  columns := 3
  constraints := 2
  entries := #[⟨0, 1⟩, ⟨3, 1⟩, ⟨0, 1⟩, ⟨0, 1⟩, ⟨-1, 1⟩, ⟨-2, 1⟩, ⟨1, 1⟩, ⟨0, 1⟩, ⟨4, 1⟩, ⟨3, 1⟩,
    ⟨0, 1⟩, ⟨1, 1⟩]

/-- An optimum of the dual method that is the least cost. -/
theorem Solver.solve_dual_optimal_dualStart :
    ∃ solved solution z, Solver.solve .exact 5 ⟨.dualSimplex, none⟩ dualStart = .ok solved ∧
      solved.result = .ok solution ∧ solution.status = .optimal ∧
      (∀ j, 1 ≤ j → j ≤ 3 → 0 ≤ dualStart.values 0 j) ∧
      dualStart.values.Optimum 2 3 solution.values z := by
  have hanswer : (Solver.solve .exact 5 ⟨.dualSimplex, none⟩ dualStart).map (fun solved =>
      solved.result) =
      .ok (.ok ⟨.optimal, some ⟨3, 2⟩, ⟨[1, 3]⟩, [⟨1, 2⟩, ⟨0, 1⟩, ⟨5, 2⟩], 0⟩) := by
    decide +kernel
  have hcosts : ∀ j, 1 ≤ j → j ≤ 3 → 0 ≤ dualStart.values 0 j := by
    decide +kernel
  rcases Calc.map_eq_ok.mp hanswer with ⟨solved, hsolve, hresult⟩
  obtain ⟨z, -, -, -, hoptimum⟩ :=
    Solver.solve_dual_optimal (T := dualStart) (by decide) rfl hsolve hresult rfl
  exact ⟨solved, _, z, hsolve, hresult, rfl, hcosts, hoptimum hcosts⟩

/-- A tableau with an identity and a negative reduced cost; its program has the optimum `(1, 0)` of cost
minus one. -/
def negativeCost : Tableau where
  columns := 2
  constraints := 1
  entries := #[⟨0, 1⟩, ⟨-1, 1⟩, ⟨0, 1⟩, ⟨1, 1⟩, ⟨1, 1⟩, ⟨1, 1⟩]

/-- Not every objective value that the dual method reports is the least cost. -/
theorem Solver.not_forall_dual_optimum_least :
    ¬∀ (T : Tableau) (S : Solver) (budget : ℕ) (solved : Solved) (solution : Solution),
      T.WellFormed → S.method = .dualSimplex →
      S.solve .exact budget T = .ok solved → solved.result = .ok solution →
      solution.status = .optimal →
      ∃ z, solution.objectiveValue = some z ∧
        ∀ x, Nonneg T.columns x → T.Satisfies x → z.toRat ≤ T.values.cost T.columns x := by
  intro hclaim
  have hanswer : (Solver.solve .exact 1 ⟨.dualSimplex, none⟩ negativeCost).map (fun solved =>
      solved.result) =
      .ok (.ok ⟨.optimal, some ⟨0, 1⟩, ⟨[2]⟩, [⟨0, 1⟩, ⟨1, 1⟩], 0⟩) := by
    decide +kernel
  rcases Calc.map_eq_ok.mp hanswer with ⟨solved, hsolve, hresult⟩
  obtain ⟨z, hz, hleast⟩ := hclaim negativeCost ⟨.dualSimplex, none⟩ 1 solved _ (by decide) rfl hsolve
    hresult rfl
  obtain rfl := Option.some.inj hz
  -- The first unit vector is a cheaper solution.
  have hnonneg : Nonneg 2 fun j => if j = 1 then 1 else 0 := by
    intro j _ _
    dsimp only
    split <;> norm_num
  have hsat : negativeCost.Satisfies fun j => if j = 1 then 1 else 0 := by
    intro i hi him
    have him' : i ≤ 1 := him
    obtain rfl : i = 1 := by omega
    decide +kernel
  have hvalue : negativeCost.values.cost 2 (fun j => if j = 1 then 1 else 0) = -1 := by
    decide +kernel
  have hcost := hleast _ hnonneg hsat
  have hcolumns : negativeCost.columns = 2 := rfl
  rw [hcolumns, hvalue] at hcost
  norm_num [toRat] at hcost

end ExactSimplex
