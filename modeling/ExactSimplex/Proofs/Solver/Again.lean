import ExactSimplex.Proofs.Solver.Iterations
import ExactSimplex.Proofs.Solver.Optima
import ExactSimplex.Proofs.Solver.Unchecked

/-!
# Solving again

A tableau that a solve has left with an optimum is finished.  The basis of the solution is accepted as a start,
the method stops at its first look, and the same solution is read off the unchanged tableau.  None of this
needs right values: it holds in every arithmetic.  Cutting planes search for their start, and they may find
another identity than the last basis.  In exact arithmetic that is an optimum, too, and it needs no cut.

Main results:

- Theorem {lit}`runStage_of_stop`: a stage that stops at once.
- Theorem {lit}`Tableau.fractionalRow_of_cutFromStart`: an optimum of cutting planes has no fractional row.
- Theorem {lit}`Tableau.Represents.startingBasis_of_canonical`: where some basis is canonical, one is found.
- Theorem {lit}`cuttingPlane_finished`: cutting planes on the tableau of their optimum.
- Theorem {lit}`Solver.solve_finished`: all methods on the tableau of their optimum.
-/

namespace ExactSimplex

open Calc Fraction

variable {A : Arithmetic} {T : Tableau} {B : Basis}

/-! ## Stages that stop at once -/

/-- A stage whose rule stops at once with an optimum reports one state and the objective value. -/
theorem runStage_of_stop {stage : Stage} {rule : Rule} {z : Fraction}
    (hstop : rule T B = .ok (.stop .optimal)) (hz : T.objectiveValue A = .ok z) (budget : ℕ) :
    runStage A stage rule (budget + 1) T B =
      .ok ⟨.optimal, T, B, [.started stage, .iteration stage 0 T B, .finished stage .optimal (some z)]⟩ := by
  unfold runStage
  rw [runRule_of_stop A hstop]
  simp [hz, bind, Except.bind, Functor.map, Except.map, pure, Except.pure, SimplexStatus.outcome]

/-- An optimum is reported with the objective value of its tableau. -/
theorem Solution.objectiveValue_of_optimal {columns cuts : ℕ} {solution : Solution}
    (h : Solution.optimal A T B columns cuts = .ok solution) :
    ∃ z, T.objectiveValue A = .ok z ∧ solution.objectiveValue = some z := by
  rcases bind_eq_ok.mp h with ⟨values, -, h⟩
  rcases bind_eq_ok.mp h with ⟨z, hz, h⟩
  cases pure_eq_ok.mp h
  exact ⟨z, hz, rfl⟩

namespace Solver

variable {solution : Solution}

/-- A canonical basis is accepted as a start. -/
theorem startingBasis_of_canonicalHead (h : CanonicalHead A (T, B)) (method : Method) :
    startingBasis A ⟨method, some B⟩ T = .ok (.ok B) := by
  have hdefect : T.basisDefect A B = .ok none :=
    Tableau.basisDefect_eq_none_iff.mpr ⟨h.size, h.range, h.nodup, h.canonical⟩
  unfold startingBasis
  dsimp only
  rw [hdefect]
  rfl

/-- From a canonical basis where its rule finds an optimum, a method of one stage shows this optimum. -/
theorem solveStage_of_stop {method : Method} {stage : Stage} {rule : Rule} (unbounded : Basis → Solution)
    (hhead : CanonicalHead A (T, B)) (hstop : rule T B = .ok (.stop .optimal))
    (hoptimal : Solution.optimal A T B T.columns 0 = .ok solution) (budget : ℕ) :
    solveStage A stage rule unbounded (budget + 1) ⟨method, some B⟩ T =
      .ok ⟨.ok solution, T, [.started stage, .iteration stage 0 T B,
        .finished stage .optimal solution.objectiveValue]⟩ := by
  rcases Solution.objectiveValue_of_optimal hoptimal with ⟨z, hz, hobjective⟩
  have hrun : runStage A stage rule (budget + 1) T B = _ := runStage_of_stop hstop hz budget
  unfold solveStage
  rw [startingBasis_of_canonicalHead hhead, hobjective]
  simp only [hrun, bind, Except.bind, stageSolution, hoptimal, pure, Except.pure]

/-- On the tableau of a reported optimum, the method from the basis of the solution finds the same solution
without a pivot. -/
theorem solve_of_lastRun {S : Solver} {U : Tableau} {s : State} {run : Run SimplexStatus}
    (hlast : LastRun A S T solution U s run) (hhead : CanonicalHead A (U, solution.basis)) (budget : ℕ) :
    ∃ stage, solve A (budget + 1)
        ⟨if S.method = .dualSimplex then .dualSimplex else .simplex, some solution.basis⟩ U =
      .ok ⟨.ok solution, U, [.started stage, .iteration stage 0 U solution.basis,
        .finished stage .optimal solution.objectiveValue]⟩ := by
  have hstops := hlast.trajectory.stops
  have hoptimal := hlast.optimal
  rw [hlast.result, hlast.tableau_eq, ← hlast.basis_eq] at hstops
  rw [← hlast.sizes.columns, hlast.tableau_eq, ← hlast.basis_eq] at hoptimal
  unfold lastRule at hstops
  by_cases hmethod : S.method = .dualSimplex
  · rw [if_pos hmethod] at hstops ⊢
    exact ⟨.dual, solveStage_of_stop (fun _ => .infeasible 0) hhead hstops hoptimal budget⟩
  · rw [if_neg hmethod] at hstops ⊢
    exact ⟨.primal, solveStage_of_stop .unbounded hhead hstops hoptimal budget⟩

end Solver

/-! ## Optima of cutting planes -/

namespace Tableau

/-- The rounds end with an optimum when no row is fractional, by induction on the number of rounds. -/
theorem fractionalRow_of_cutRounds {budget rounds round : ℕ} {run : Run IntegerStatus}
    (h : cutRounds A budget rounds round T B = .ok run) (hresult : run.result = .optimal) :
    run.tableau.fractionalRow = .ok none := by
  induction rounds generalizing round T B run with
  | zero => cases h
  | succ rounds ih =>
      rcases cutRounds_cases h with ⟨hfound, rfl⟩ | ⟨_, _, _, -, -, -, ⟨-, rfl⟩ | ⟨rest, -, hrest, rfl⟩⟩
      · exact hfound
      · cases hresult
      · have hrow := ih hrest hresult
        exact hrow

/-- The relaxed program and its rounds end with an optimum when no row is fractional. -/
theorem fractionalRow_of_relaxAndCut {budget : ℕ} {run : Run IntegerStatus}
    (h : relaxAndCut A budget T B = .ok run) (hresult : run.result = .optimal) :
    run.tableau.fractionalRow = .ok none := by
  rcases relaxAndCut_cases h with ⟨_, -, ⟨-, rfl⟩ | ⟨rest, -, hrest, rfl⟩⟩
  · cases hresult
  · have hrow := fractionalRow_of_cutRounds hrest hresult
    exact hrow

/-- An optimum of cutting planes has no fractional row. -/
theorem fractionalRow_of_cutFromStart {budget : ℕ} {run : Run (Except SolveError IntegerStatus)}
    (h : cutFromStart A budget T B = .ok run) (hresult : run.result = .ok .optimal) :
    run.tableau.fractionalRow = .ok none := by
  rcases cutFromStart_cases h with ⟨_, inner, -, hinner, rfl⟩ |
    ⟨_, -, -, ⟨_, -, rfl⟩ | ⟨-, rfl⟩ | ⟨inner, -, hinner, rfl⟩⟩
  · exact fractionalRow_of_relaxAndCut hinner (Except.ok.inj hresult)
  · cases hresult
  · cases hresult
  · exact fractionalRow_of_relaxAndCut hinner (Except.ok.inj hresult)

/-- Where some basis of variables is canonical, the search finds one, although perhaps another one. -/
theorem Represents.startingBasis_of_canonical {m n : ℕ} {M : Values} {β : ℕ → ℕ} (hT : T.Represents m n M)
    (hM : M.Canonical m n β) (hβ : ∀ i, 1 ≤ i → i ≤ m → 1 ≤ β i) :
    ∃ found, T.startingBasis .exact = .ok (some found) := by
  have hexists : ∀ i, 1 ≤ i → i ≤ m → ∃ c, FirstUnit M m (n + 1) i c := by
    intro i hi him
    exact FirstUnit.exists_of_unit (hβ i hi him) (Nat.lt_succ_of_le (hM.basic_le i hi him))
      fun k hk => hM.unit i hi him k hk
  choose! first hfirst using hexists
  rcases hT.exists_startingBasis with ⟨found, hfound, hiff⟩
  refine ⟨⟨(List.range m).map fun k => first (k + 1)⟩, ?_⟩
  rw [hfound]
  congr 1
  refine (hiff _).mpr ⟨by simp [Basis.size], fun i hi him => ?_⟩
  rcases Nat.exists_eq_add_of_le' hi with ⟨k, rfl⟩
  have hk : k < m := by omega
  have hbasic : (⟨(List.range m).map fun k => first (k + 1)⟩ : Basis).basic (k + 1) = first (k + 1) := by
    simp [Basis.basic, hk]
  rw [hbasic]
  exact hfirst (k + 1) hi him

end Tableau

section CuttingPlane

variable {budget : ℕ} {run : Run (Except SolveError IntegerStatus)}

/-- The frame of a stage with an optimum ends with the report of its objective value. -/
theorem Tableau.objectiveValue_of_cuttingPlane (h : T.cuttingPlane A budget B = .ok run)
    (hresult : run.result = .ok .optimal) :
    ∃ z earlier, run.tableau.objectiveValue A = .ok z ∧
      run.events = earlier ++ [.finished .cuttingPlane .optimal (some z)] := by
  rcases cuttingPlane_frame h with
    ⟨inner, -, ⟨e, herror, rfl⟩ | ⟨status, objective, hinnerResult, hreports, rfl⟩⟩
  · cases herror.symm.trans hresult
  · cases hinnerResult.symm.trans hresult
    cases objective with
    | none => exact absurd rfl hreports
    | some z => exact ⟨z, _, hreports.2, rfl⟩

/-- Cutting planes on the tableau of their optimum find an identity, stop at the first look of the primal
method, and add no cut. -/
theorem cuttingPlane_finished (hT : T.WellFormed) (h : T.cuttingPlane .exact budget B = .ok run)
    (hresult : run.result = .ok .optimal) :
    ∃ m n found z earlier, CanonicalState m n run.tableau.values (run.tableau, found) ∧
      BasicPos m (run.tableau, found) ∧ run.tableau.objectiveValue .exact = .ok z ∧
      run.events = earlier ++ [.finished .cuttingPlane .optimal (some z)] ∧
      ∀ C budget, run.tableau.cuttingPlane .exact (budget + 1) C =
        .ok ⟨.ok .optimal, run.tableau, found, [.started .cuttingPlane, .started .primal,
          .iteration .primal 0 run.tableau found, .finished .primal .optimal (some z),
          .finished .cuttingPlane .optimal (some z)]⟩ := by
  rcases Tableau.objectiveValue_of_cuttingPlane h hresult with ⟨z, earlier, hz, hevents⟩
  rcases Tableau.cutFromStart_of_cuttingPlane h with ⟨inner, hinner, hinnerResult, hU, hC⟩
  have hinnerOptimal : inner.result = .ok .optimal := hinnerResult.symm.trans hresult
  have hrow := Tableau.fractionalRow_of_cutFromStart hinner hinnerOptimal
  rcases hT.cutFromStart_cutState hinner hinnerOptimal with ⟨m, n, hlast, -⟩
  rw [← hU] at hrow
  rw [← hU, ← hC] at hlast
  have hcolumn : run.tableau.enteringColumn = .ok none := by
    rcases hlast.tableau.enteringColumn_cases with ⟨hnone, -⟩ | ⟨j, -, hj, hjn, hcost, -⟩
    · exact hnone
    · exact absurd hcost (not_lt.mpr (hlast.cost_nonneg j hj hjn))
  rcases hlast.tableau.startingBasis_of_canonical hlast.canonical hlast.basic_pos with ⟨found, hfound⟩
  rcases hlast.tableau.startingBasis hfound with ⟨hbasis, hcanonical, hpos⟩
  refine ⟨m, n, found, z, earlier, ⟨hlast.tableau, hbasis, hcanonical, .refl _ _ _⟩, hpos, hz, hevents,
    fun C budget => ?_⟩
  have hstop := Tableau.primalRule_of_optimal .exact found hcolumn
  have hprimal : run.tableau.primalSimplex .exact (budget + 1) found = _ := runStage_of_stop hstop hz budget
  have hcuts := Tableau.cutRounds_of_integral .exact found hrow (budget + 1) budget 0
  simp only [Tableau.cuttingPlane, Tableau.cutFromStart, Tableau.relaxAndCut, hfound, hprimal, hcuts, hz,
    bind, Except.bind, Functor.map, Except.map, pure, Except.pure, Run.after, IntegerStatus.outcome,
    List.cons_append, List.nil_append, List.append_nil]

end CuttingPlane

namespace Solver

variable {S : Solver} {budget : ℕ} {solved : Solved} {solution : Solution}

/-- Solving the tableau of an integer optimum again reports an optimum of the same objective value. -/
theorem solveInteger_finished (hT : T.WellFormed) (h : solveInteger .exact budget T = .ok solved)
    (hresult : solved.result = .ok solution) (hstatus : solution.status = .optimal) (again : ℕ) :
    ∃ solution' events, solveInteger .exact (again + 1) solved.tableau =
        .ok ⟨.ok solution', solved.tableau, events⟩ ∧ solution'.status = .optimal ∧
      solution'.objectiveValue = solution.objectiveValue ∧ solution'.cuts = 0 ∧
      Record.pivots (events.map Event.record) = [] ∧ Record.cuts (events.map Event.record) = 0 := by
  rcases solveInteger_optimal h hresult hstatus with ⟨run, hrun, hrunResult, hoptimal, htableau⟩
  rcases cuttingPlane_finished hT hrun hrunResult with ⟨m, n, found, z, -, hs, hpos, hz, -, hagain⟩
  rcases Solution.objectiveValue_of_optimal hoptimal with ⟨z', hz', hobjective⟩
  obtain rfl := Except.ok.inj (hz.symm.trans hz')
  obtain ⟨values, hvalues⟩ : ∃ values, run.tableau.basicSolution found = .ok values :=
    ⟨_, hs.tableau.basicSolution hs.basis hs.canonical hpos⟩
  have hsolve : solveInteger .exact (again + 1) run.tableau =
      .ok ⟨.ok ⟨.optimal, some z, found, values.take run.tableau.columns, 0⟩, run.tableau,
        [.started .cuttingPlane, .started .primal, .iteration .primal 0 run.tableau found,
          .finished .primal .optimal (some z), .finished .cuttingPlane .optimal (some z)]⟩ := by
    simp only [solveInteger, integerSolution, Solution.optimal, hagain ⟨[]⟩ again, hvalues, hz,
      Nat.sub_self, bind, Except.bind, pure, Except.pure]
  rw [htableau]
  exact ⟨_, _, hsolve, rfl, hobjective.symm, rfl, rfl, rfl⟩

/-- A tableau that was left with an optimum is finished.  After the primal method, the dual method or both
phases, in any arithmetic and whatever wrapped, the basis of the solution is accepted as a start and the same
solution is found without a pivot; the data need not even have the right length.  After cutting planes in exact
arithmetic, neither a pivot nor a cut is made, and the objective value is reported again. -/
theorem solve_finished :
    (∀ (A : Arithmetic) (T : Tableau) (S : Solver) (budget : ℕ) (solved : Solved) (solution : Solution),
      A.holds 1 = true → (∀ a ∈ T.entries, Built A a) → S.method ≠ .cuttingPlane →
      S.solve A budget T = .ok solved → solved.result = .ok solution → solution.status = .optimal →
      ∀ again, ∃ stage, solve A (again + 1)
          ⟨if S.method = .dualSimplex then .dualSimplex else .simplex, some solution.basis⟩ solved.tableau =
        .ok ⟨.ok solution, solved.tableau, [.started stage,
          .iteration stage 0 solved.tableau solution.basis,
          .finished stage .optimal solution.objectiveValue]⟩) ∧
    (∀ (T : Tableau) (B : Basis) (budget : ℕ) (run : Run (Except SolveError IntegerStatus)),
      T.WellFormed → T.cuttingPlane .exact budget B = .ok run → run.result = .ok .optimal →
      ∃ z earlier found, run.events = earlier ++ [.finished .cuttingPlane .optimal (some z)] ∧
        ∀ C again, run.tableau.cuttingPlane .exact (again + 1) C =
          .ok ⟨.ok .optimal, run.tableau, found, [.started .cuttingPlane, .started .primal,
            .iteration .primal 0 run.tableau found, .finished .primal .optimal (some z),
            .finished .cuttingPlane .optimal (some z)]⟩) ∧
    ∀ (T : Tableau) (S : Solver) (budget : ℕ) (solved : Solved) (solution : Solution),
      T.WellFormed → S.method = .cuttingPlane → S.solve .exact budget T = .ok solved →
      solved.result = .ok solution → solution.status = .optimal →
      ∀ C again, ∃ solution' events, solve .exact (again + 1) ⟨.cuttingPlane, C⟩ solved.tableau =
          .ok ⟨.ok solution', solved.tableau, events⟩ ∧ solution'.status = .optimal ∧
        solution'.objectiveValue = solution.objectiveValue ∧ solution'.cuts = 0 ∧
        Record.pivots (events.map Event.record) = [] ∧ Record.cuts (events.map Event.record) = 0 := by
  refine ⟨?plain, ?cuttingPlane, ?integer⟩
  case plain =>
    intro A T S budget solved solution hA hentries hmethod hsolve hresult hstatus again
    have hhead := canonicalHead_of_solve hA hentries hmethod hsolve hresult hstatus
    rcases exists_lastRun hmethod hsolve hresult hstatus with ⟨s, run, hlast⟩
    exact solve_of_lastRun hlast hhead again
  case cuttingPlane =>
    intro T B budget run hT hrun hresult
    rcases cuttingPlane_finished hT hrun hresult with ⟨-, -, found, z, earlier, -, -, -, hevents, hagain⟩
    exact ⟨z, earlier, found, hevents, hagain⟩
  case integer =>
    intro T S budget solved solution hT hmethod hsolve hresult hstatus C again
    unfold solve at hsolve
    rw [hmethod] at hsolve
    exact solveInteger_finished hT hsolve hresult hstatus again

/-- The wrong optimum of a run that wrapped and the optimum after a cut are both found again at once. -/
theorem solve_finished_overflowing :
    (∃ solved solution stage,
      (⟨.twoPhase, none⟩ : Solver).solve (.wrapping 32) 9 overflowing = .ok solved ∧
        solved.result = .ok solution ∧ solution.status = .optimal ∧
          solve (.wrapping 32) 1 ⟨.simplex, some solution.basis⟩ solved.tableau =
            .ok ⟨.ok solution, solved.tableau, [.started stage,
              .iteration stage 0 solved.tableau solution.basis,
              .finished stage .optimal solution.objectiveValue]⟩) ∧
    (∃ run again, halves.cuttingPlane .exact 5 ⟨[]⟩ = .ok run ∧ run.tableau.constraints = 2 ∧
      run.tableau.cuttingPlane .exact 1 ⟨[]⟩ = .ok again ∧ again.result = .ok .optimal ∧
        again.tableau = run.tableau ∧ again.events.length = 5) ∧
    ∃ solved again, solve .exact 5 ⟨.cuttingPlane, none⟩ halves = .ok solved ∧
      solve .exact 1 ⟨.cuttingPlane, none⟩ solved.tableau = .ok again ∧
        Record.cuts (solved.events.map Event.record) = 1 ∧
          Record.cuts (again.events.map Event.record) = 0 := by
  rcases solve_finished with ⟨hplain, hcutting, hinteger⟩
  refine ⟨?plain, ?cuttingPlane, ?integer⟩
  case plain =>
    have hintegers : ∀ a ∈ overflowing.entries,
        a = Fraction.ofInt a.num ∧ (Arithmetic.wrapping 32).holds a.num = true := by
      decide +kernel
    have hentries : ∀ a ∈ overflowing.entries, Built (.wrapping 32) a := by
      intro a ha
      rcases hintegers a ha with ⟨hinteger, hheld⟩
      rw [hinteger]
      exact .ofInt hheld
    have hanswer : ((⟨.twoPhase, none⟩ : Solver).solve (.wrapping 32) 9 overflowing).map (fun solved =>
        solved.result.map fun solution => solution.status) = .ok (.ok .optimal) := by
      decide +kernel
    rcases map_eq_ok.mp hanswer with ⟨solved, hsolve, hstatus⟩
    rcases hresult : solved.result with e | solution
    · rw [hresult] at hstatus
      cases hstatus
    · rw [hresult] at hstatus
      have hoptimal : solution.status = .optimal := Except.ok.inj hstatus
      rcases hplain (.wrapping 32) overflowing ⟨.twoPhase, none⟩ 9 solved solution (by decide) hentries
        (by decide) hsolve hresult hoptimal 0 with ⟨stage, hagain⟩
      exact ⟨solved, solution, stage, hsolve, hresult, hoptimal, hagain⟩
  case cuttingPlane =>
    have hanswer : (halves.cuttingPlane .exact 5 ⟨[]⟩).map (fun run =>
        (run.result, run.tableau.constraints)) = .ok (.ok .optimal, 2) := by
      decide +kernel
    rcases map_eq_ok.mp hanswer with ⟨run, hrun, hanswer⟩
    rcases Prod.mk.inj hanswer with ⟨hresult, hconstraints⟩
    rcases hcutting halves ⟨[]⟩ 5 run (by decide) hrun hresult with ⟨z, earlier, found, -, hagain⟩
    exact ⟨run, _, hrun, hconstraints, hagain ⟨[]⟩ 0, rfl, rfl, rfl⟩
  case integer =>
    have hanswer : (solve .exact 5 ⟨.cuttingPlane, none⟩ halves).map (fun solved =>
        (solved.result.map fun solution => solution.status,
          Record.cuts (solved.events.map Event.record))) = .ok (.ok .optimal, 1) := by
      decide +kernel
    rcases map_eq_ok.mp hanswer with ⟨solved, hsolve, hanswer⟩
    rcases Prod.mk.inj hanswer with ⟨hstatus, hcuts⟩
    rcases hresult : solved.result with e | solution
    · rw [hresult] at hstatus
      cases hstatus
    · rw [hresult] at hstatus
      rcases hinteger halves ⟨.cuttingPlane, none⟩ 5 solved solution (by decide) rfl hsolve hresult
        (Except.ok.inj hstatus) none 0 with ⟨solution', events, hagain, -, -, -, -, hnone⟩
      exact ⟨solved, _, hsolve, hagain, hcuts, hnone⟩

end Solver

end ExactSimplex
