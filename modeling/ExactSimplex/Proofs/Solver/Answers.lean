import ExactSimplex.Proofs.Simplex.DualEnds
import ExactSimplex.Proofs.Solver.Feasibility
import ExactSimplex.Proofs.Solver.Optima

/-!
# The answers of the two methods

From a feasible canonical basis the primal method states the same program in every iteration, with
nonnegative right-hand sides and objective values that never increase, and it ends with a right answer.
The dual method may be run from any canonical basis: what it reports as infeasible has no nonnegative
solution, and what it reports as an optimum is one with the shown cost.  If the reduced costs are
nonnegative at the start, they stay so, the objective values never decrease, and the reported cost is the
least one.

Main results:

- Theorems {lit}`BlandPivot.objectiveLe` and {lit}`DualPivot.objectiveLe`: how one pivot changes the
  objective value.
- Theorem {lit}`CanonicalState.shows`: the basic solution and the objective value of a state.
- Theorem {lit}`primalSimplex_answer`: the iterations and the answer of the primal method.
- Theorem {lit}`dualSimplex_answer`: the iterations and the answer of the dual method.
-/

namespace ExactSimplex

open Fraction

variable {m n : ℕ} {M : Values} {s s' : State}

/-! ## Objective values -/

/-- The first tableau shows an objective value that is not above the one of the second. -/
def ObjectiveLe (s s' : State) : Prop :=
  ∃ z z', s.1.objectiveValue .exact = .ok z ∧ s'.1.objectiveValue .exact = .ok z' ∧
    z.toRat ≤ z'.toRat

/-- Objective values that fall twice fall. -/
theorem ObjectiveLe.trans {s'' : State} (h : ObjectiveLe s s') (h' : ObjectiveLe s' s'') :
    ObjectiveLe s s'' := by
  rcases h with ⟨z, z', hz, hz', hle⟩
  rcases h' with ⟨w, w', hw, hw', hle'⟩
  obtain rfl := Except.ok.inj (hz'.symm.trans hw)
  exact ⟨z, w', hz, hw', hle.trans hle'⟩

/-- The objective value is the negated corner entry. -/
theorem CanonicalState.objectiveLe (hs : CanonicalState m n M s) (hs' : CanonicalState m n M s')
    (hcorner : s'.1.values 0 0 ≤ s.1.values 0 0) : ObjectiveLe s s' := by
  refine ⟨_, _, hs.tableau.objectiveValue, hs'.tableau.objectiveValue, ?_⟩
  rw [toRat_ofRat, toRat_ofRat]
  exact neg_le_neg hcorner

/-- Bland's pivot in a feasible state does not increase the objective value. -/
theorem BlandPivot.objectiveLe (hs : PrimalState m n M s) (hs' : CanonicalState m n M s') {h t : ℕ}
    (hbland : BlandPivot m n s.1.values s.2.basic h t) (hex : Exchange s s' h t) :
    ObjectiveLe s' s := by
  apply hs'.objectiveLe hs.toCanonicalState
  have hratio : 0 ≤ s.1.values t 0 / s.1.values t h :=
    div_nonneg (hs.rhs_nonneg t hbland.row_pos hbland.row_le) hbland.entry.le
  have hgain := mul_nonpos_of_nonpos_of_nonneg hbland.cost.le hratio
  rw [hex.cost hbland.row_pos]
  linarith

/-- A pivot of the dual method with nonnegative reduced costs does not decrease the objective value. -/
theorem DualPivot.objectiveLe (hs : DualState m n M s) (hs' : CanonicalState m n M s') {h t : ℕ}
    (hdual : DualPivot m n s.1.values s.2.basic h t) (hex : Exchange s s' h t) :
    ObjectiveLe s s' := by
  apply hs.toCanonicalState.objectiveLe hs'
  have hratio : 0 < s.1.values t 0 / s.1.values t h := div_pos_of_neg_of_neg hdual.rhs hdual.entry
  have hloss := mul_nonneg (hs.cost_nonneg h hdual.column_pos hdual.column_le) hratio.le
  rw [hex.cost hdual.row_pos]
  linarith

/-! ## Answers -/

/-- The basic solution of a canonical state solves its program at the shown objective value; it is
nonnegative if the right-hand sides are. -/
theorem CanonicalState.shows (hs : CanonicalState m n M s) (hpos : BasicPos m s) :
    ∃ values z, s.1.basicSolution s.2 = .ok values ∧ s.1.objectiveValue .exact = .ok z ∧
      z.toRat = -s.1.values 0 0 ∧ M.Attains m n values z ∧
      ((∀ i, 1 ≤ i → i ≤ m → 0 ≤ s.1.values i 0) → Nonneg n (Tableau.pointOf values)) := by
  set x := s.1.values.basicPoint m s.2.basic with hx
  have hsame : ∀ j, 1 ≤ j → j ≤ n → Tableau.pointOf (Tableau.storedPoint n x) j = x j := by
    intro j hj hjn
    have htake := Tableau.pointOf_take_storedPoint x le_rfl hj hjn
    rwa [List.take_of_length_le (Tableau.length_storedPoint n x).le] at htake
  have hsat := hs.satisfies_basicPoint hpos
  refine ⟨_, _, hs.tableau.basicSolution hs.basis hs.canonical hpos, hs.tableau.objectiveValue,
    toRat_ofRat _, ⟨Tableau.length_storedPoint n x, hsat.congr hsame, ?_⟩, fun hrhs j hj hjn => ?_⟩
  · rw [M.cost_congr hsame, hx, hs.cost_basicPoint hpos, toRat_ofRat]
  · rw [hsame j hj hjn]
    exact Values.basicPoint_nonneg hrhs j

/-! ## The primal method -/

/-- The primal method ends from every canonical basis with nonnegative right-hand sides, where the columns
of a basis are numbered from one.  Each of its iterations states the program of the tableau in such a
basis, and no objective value is above an earlier one.  An optimum that it reports is a cheapest
nonnegative solution, and where it reports an unbounded program there are solutions of any low cost. -/
theorem primalSimplex_answer {T : Tableau} {B : Basis} (hT : T.WellFormed)
    (hB : T.isCanonical .exact B = .ok true) (hvariables : ∀ c ∈ B.columns, 1 ≤ c)
    (hrhs : ∀ i, 1 ≤ i → i ≤ T.constraints → 0 ≤ T.values i 0) :
    ∃ run, Ends (fun budget => T.primalSimplex .exact budget B) run ∧
      Trajectory .exact (Tableau.primalRule .exact) (T, B) run ∧
      (∀ s ∈ snapshots run.events, T.Prepared s.1 s.2) ∧
      (snapshots run.events).Pairwise (fun s s' => ObjectiveLe s' s) ∧
      match run.result with
      | .optimal => ∃ values z, run.tableau.basicSolution run.basis = .ok values ∧
          run.tableau.objectiveValue .exact = .ok z ∧
          T.values.Optimum T.constraints T.columns values z
      | .unbounded => ∀ K, ∃ x, Nonneg T.columns x ∧ T.Satisfies x ∧ T.cost x < K := by
  have hs : PrimalState T.constraints T.columns T.values (T, B) := ⟨hT.canonicalState hB, hrhs⟩
  have hpos : BasicPos T.constraints (T, B) := hs.basicPos hvariables
  rcases hs.exists_run hpos with ⟨run, hends, hlast, hlastPos, hverdict⟩
  rcases hends.exists_eq_ok with ⟨budget, hrun⟩
  have htrajectory := runStage_trajectory hrun
  set P := primalMethod T.constraints T.columns T.values
  refine ⟨run, hends, htrajectory, fun s hmem => ?prepared, ?objective, ?answer⟩
  case prepared =>
    have hready := htrajectory.ready_of_mem P.progresses_basicPos ⟨hs, hpos⟩ hmem
    exact hready.1.prepared hready.2
  case objective =>
    apply htrajectory.pairwise P.progresses hs
    · intro a b c hab hbc
      exact hbc.trans hab
    · intro a b ha hstep
      -- Every step is an exchange, and the entering column has a negative reduced cost.
      rcases P.exchange_of_step ha hstep with ⟨h, t, hbland, hex⟩
      exact hbland.objectiveLe ha (P.progresses.ready_of_step ha hstep).toCanonicalState hex
  case answer =>
    cases hresult : run.result with
    | optimal =>
        rw [hresult] at hverdict
        rcases hlast.shows hlastPos with ⟨values, z, hvalues, hz, hcorner, hattains, hnonneg⟩
        refine ⟨values, z, hvalues, hz, hattains.length, hnonneg hlast.rhs_nonneg, hattains.satisfies,
          hattains.cost, fun x hx hsat => ?_⟩
        rw [hcorner]
        exact hlast.cost_le hverdict hx hsat
    | unbounded =>
        rw [hresult] at hverdict
        exact hlast.unbounded hlastPos hverdict

/-- The degenerate tableau has an optimum of cost minus one twentieth, which is found after six pivots. -/
theorem primalSimplex_answer_degenerate :
    ∃ run values, Ends (fun budget => degenerate.primalSimplex .exact budget ⟨[1, 2, 3]⟩) run ∧
      (snapshots run.events).length = 7 ∧ (∀ s ∈ snapshots run.events, degenerate.Prepared s.1 s.2) ∧
      (snapshots run.events).Pairwise (fun s s' => ObjectiveLe s' s) ∧
      degenerate.values.Optimum 3 7 values ⟨-1, 20⟩ := by
  have hevaluated : (degenerate.primalSimplex .exact 7 ⟨[1, 2, 3]⟩).map (fun run =>
      (run.result, run.tableau.objectiveValue .exact, (snapshots run.events).length)) =
      .ok (.optimal, .ok ⟨-1, 20⟩, 7) := by
    decide +kernel
  obtain ⟨run, hends, -, hprepared, hobjective, hanswer⟩ :=
    primalSimplex_answer (T := degenerate) (B := ⟨[1, 2, 3]⟩) (by decide) (by decide) (by decide)
      (by decide +kernel)
  rcases Calc.map_eq_ok.mp hevaluated with ⟨run', hrun', hparts⟩
  rw [hends.eq_of_eq_ok hrun', Prod.mk.injEq, Prod.mk.injEq] at hparts
  rcases hparts with ⟨hresult, hcost, hlength⟩
  rw [hresult] at hanswer
  rcases hanswer with ⟨values, z, -, hz, hoptimum⟩
  obtain rfl := Except.ok.inj (hz.symm.trans hcost)
  exact ⟨run, values, hends, hlength, hprepared, hobjective, hoptimum⟩

/-! ## The dual method -/

/-- A run of the dual method from any canonical basis that returns: an infeasible program has no
nonnegative solution, and the values read off an optimum are one, at the shown cost.  With nonnegative
reduced costs at the start they stay so, no objective value is below an earlier one, and the shown cost
is the least one. -/
theorem dualSimplex_answer {T : Tableau} {B : Basis} {budget : ℕ} {run : Run SimplexStatus}
    (hT : T.WellFormed) (hB : T.isCanonical .exact B = .ok true)
    (hvariables : ∀ c ∈ B.columns, 1 ≤ c) (hrun : T.dualSimplex .exact budget B = .ok run) :
    (run.result = .unbounded → ¬T.Solvable) ∧
    (run.result = .optimal → ∃ values z, run.tableau.basicSolution run.basis = .ok values ∧
      run.tableau.objectiveValue .exact = .ok z ∧ Nonneg T.columns (Tableau.pointOf values) ∧
      T.values.Attains T.constraints T.columns values z ∧
      ((∀ j, 1 ≤ j → j ≤ T.columns → 0 ≤ T.values 0 j) →
        T.values.Optimum T.constraints T.columns values z)) ∧
    Trajectory .exact (Tableau.dualRule .exact) (T, B) run ∧
    ((∀ j, 1 ≤ j → j ≤ T.columns → 0 ≤ T.values 0 j) →
      (∀ s ∈ snapshots run.events, ∀ j, 1 ≤ j → j ≤ T.columns → 0 ≤ s.1.values 0 j) ∧
      (snapshots run.events).Pairwise ObjectiveLe) := by
  have hs : CanonicalState T.constraints T.columns T.values (T, B) := hT.canonicalState hB
  have hpos : BasicPos T.constraints (T, B) := hs.basicPos hvariables
  have htrajectory := runStage_trajectory hrun
  rcases hs.of_dual_run hpos hrun with ⟨hlast, hlastPos, hverdict⟩
  refine ⟨fun hresult => ?infeasible, fun hresult => ?optimal, htrajectory, fun hcosts => ?iterations⟩
  case infeasible =>
    rw [hresult] at hverdict
    rcases hverdict with ⟨t, ht, htm, hnegative, hrow⟩
    rintro ⟨x, hx, hsat⟩
    -- The last row reads: a nonnegative sum is negative.
    exact Values.not_satisfies_of_row ht htm hnegative hrow hx
      ((hlast.equivalent.satisfies_iff x).mp hsat)
  case optimal =>
    rw [hresult] at hverdict
    rcases hlast.shows hlastPos with ⟨values, z, hvalues, hz, hcorner, hattains, hnonneg⟩
    refine ⟨values, z, hvalues, hz, hnonneg hverdict, hattains, fun hcosts => ⟨hattains.length,
      hnonneg hverdict, hattains.satisfies, hattains.cost, fun x hx hsat => ?_⟩⟩
    have hdual : DualState T.constraints T.columns T.values (T, B) := ⟨hs, hcosts⟩
    rw [hcorner]
    exact hlast.cost_le (hdual.of_run hpos hrun).1.cost_nonneg hx hsat
  case iterations =>
    have hdual : DualState T.constraints T.columns T.values (T, B) := ⟨hs, hcosts⟩
    set P := dualMethod T.constraints T.columns T.values
    refine ⟨fun s hmem => (htrajectory.ready_of_mem P.progresses hdual hmem).cost_nonneg, ?_⟩
    apply htrajectory.pairwise P.progresses hdual
    · intro a b c
      exact ObjectiveLe.trans
    · intro a b ha hstep
      rcases P.exchange_of_step ha hstep with ⟨h, t, hpivot, hex⟩
      exact hpivot.objectiveLe ha (P.progresses.ready_of_step ha hstep).toCanonicalState hex

/-- From a start with a negative right-hand side the dual method reaches the optimum. -/
theorem dualSimplex_answer_dualStart :
    ∃ run values z, dualStart.dualSimplex .exact 5 ⟨[2, 3]⟩ = .ok run ∧
      (snapshots run.events).Pairwise ObjectiveLe ∧
      run.tableau.basicSolution run.basis = .ok values ∧
      dualStart.values.Optimum 2 3 values z := by
  have hanswer : (dualStart.dualSimplex .exact 5 ⟨[2, 3]⟩).map (fun run => run.result) =
      .ok .optimal := by
    decide +kernel
  have hcosts : ∀ j, 1 ≤ j → j ≤ 3 → 0 ≤ dualStart.values 0 j := by
    decide +kernel
  rcases Calc.map_eq_ok.mp hanswer with ⟨run, hrun, hresult⟩
  obtain ⟨-, hoptimal, -, hiterations⟩ :=
    dualSimplex_answer (T := dualStart) (by decide) (by decide) (by decide) hrun
  rcases hoptimal hresult with ⟨values, z, hvalues, -, -, -, hoptimum⟩
  exact ⟨run, values, z, hrun, (hiterations hcosts).2, hvalues, hoptimum hcosts⟩

end ExactSimplex
