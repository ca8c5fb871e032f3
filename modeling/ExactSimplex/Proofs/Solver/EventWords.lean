import ExactSimplex.Proofs.Simplex.CuttingPlane
import ExactSimplex.Proofs.Simplex.EventWords
import ExactSimplex.Proofs.Solver.Methods

/-!
# What the events of a solve tell

A solve that returns a solution has told its whole course: the primal and the dual method one stage, both
phases phase one and the primal method after it, cutting planes a stage of their own around all others.  The
solution counts the cuts that were told, and its objective value is the last thing that is reported.

Main results:

- Theorem {lit}`Solver.solve_recounted`: the events of a solve recount it.
-/

namespace ExactSimplex

open Calc

variable {A : Arithmetic} {budget : ℕ} {S : Solver} {T U : Tableau} {B : Basis} {solved : Solved}
  {solution : Solution}

/-- The status of a solve by the primal method. -/
def SimplexStatus.ofPrimal : SimplexStatus → Status
  | optimal => .optimal
  | unbounded => .unbounded

/-- The status of a solve by the dual method, where an unbounded dual leaves no feasible point. -/
def SimplexStatus.ofDual : SimplexStatus → Status
  | optimal => .optimal
  | unbounded => .infeasible

/-- The status of a solve by cutting planes. -/
def IntegerStatus.ofCuts : IntegerStatus → Status
  | optimal => .optimal
  | unbounded => .unbounded
  | infeasible => .infeasible

/-- The events of a solve that ends with the tableau `U`, by its method, its status and the number of its
cuts. -/
inductive SolveWord (A : Arithmetic) (U : Tableau) : Method → Status → ℕ → List Event → Prop
  | simplex {status : SimplexStatus} {events : List Event} : SimplexWord A .primal U status events →
      SolveWord A U .simplex status.ofPrimal 0 events
  | dualSimplex {status : SimplexStatus} {events : List Event} : SimplexWord A .dual U status events →
      SolveWord A U .dualSimplex status.ofDual 0 events
  | infeasible {first : List Event} : PhaseOneWord A U .infeasible first →
      SolveWord A U .twoPhase .infeasible 0 first
  | twoPhase {V : Tableau} {status : SimplexStatus} {first events : List Event} :
      PhaseOneWord A V .feasible first → SimplexWord A .primal U status events →
      SolveWord A U .twoPhase status.ofPrimal 0 (first ++ events)
  | cuttingPlane {status : IntegerStatus} {cuts : ℕ} {events : List Event} :
      CuttingPlaneWord A U status cuts events →
      SolveWord A U .cuttingPlane status.ofCuts cuts events

/-- The events of a solve recount it: they are a word of its method with the status of the solution, the cuts
among them are those of the solution and those by which the tableau has grown, and the last of them reports
the objective value of the solution. -/
structure Recounts (A : Arithmetic) (method : Method) (T : Tableau) (solved : Solved)
    (solution : Solution) : Prop where
  word : SolveWord A solved.tableau method solution.status solution.cuts solved.events
  cuts : Record.cuts (solved.events.map Event.record) = solution.cuts
  grown : T.GrownBy solved.tableau solution.cuts
  last : ∃ earlier stage outcome,
    solved.events = earlier ++ [.finished stage outcome solution.objectiveValue]

/-! ## Reports -/

/-- A stage ends with the report of its objective value, if it has one. -/
theorem SimplexWord.last {stage : Stage} {status : SimplexStatus} {events : List Event}
    (h : SimplexWord A stage U status events) :
    ∃ earlier outcome objective, events = earlier ++ [.finished stage outcome objective] ∧
      Reports A U (status = .optimal) objective := by
  cases h with
  | frame _ hreports => exact ⟨_, _, _, rfl, hreports⟩

/-- Phase one without a feasible point ends with the report of it. -/
theorem PhaseOneWord.last_infeasible {events : List Event} (h : PhaseOneWord A U .infeasible events) :
    ∃ earlier, events = earlier ++ [.finished .phaseOne .infeasible none] := by
  cases h with
  | infeasible _ => exact ⟨_, rfl⟩

/-- Cutting planes end with the report of their objective value, if they have one. -/
theorem CuttingPlaneWord.last {status : IntegerStatus} {cuts : ℕ} {events : List Event}
    (h : CuttingPlaneWord A U status cuts events) :
    ∃ earlier outcome objective, events = earlier ++ [.finished .cuttingPlane outcome objective] ∧
      Reports A U (status = .optimal) objective := by
  cases h with
  | frame _ hreports => exact ⟨_, _, _, rfl, hreports⟩

/-- No cut is made in a program whose relaxed program is unbounded. -/
theorem CuttingPlaneWord.cuts_of_unbounded {cuts : ℕ} {events : List Event}
    (h : CuttingPlaneWord A U .unbounded cuts events) : cuts = 0 := by
  have hrelaxed : ∀ {cuts : ℕ} {events : List Event}, RelaxedWord A .unbounded cuts events →
      cuts = 0 := by
    intro cuts events hword
    cases hword with
    | unbounded _ => rfl
    | rounds _ hrest => exact absurd rfl hrest.ne_unbounded
  cases h with
  | frame hstart _ =>
      cases hstart with
      | found hword => exact hrelaxed hword
      | feasible _ hword => exact hrelaxed hword

/-! ## Solutions -/

/-- An optimum is shown with its cuts and with the objective value of its tableau. -/
theorem Solution.reports_optimal {columns cuts : ℕ} {shown : Prop} (hshown : shown)
    (h : Solution.optimal A U B columns cuts = .ok solution) :
    solution.status = .optimal ∧ solution.cuts = cuts ∧
      Reports A U shown solution.objectiveValue := by
  rcases bind_eq_ok.mp h with ⟨values, -, h⟩
  rcases bind_eq_ok.mp h with ⟨z, hz, h⟩
  cases pure_eq_ok.mp h
  exact ⟨rfl, rfl, hshown, hz⟩

namespace Solver

/-- How the end of a stage is shown: with a status of its own, without cuts, and with an objective value only
if it is an optimum. -/
structure ShownAs (status : SimplexStatus → Status) (unbounded : Basis → Solution) : Prop where
  status_optimal : status .optimal = .optimal
  status_unbounded : ∀ B, (unbounded B).status = status .unbounded
  cuts_unbounded : ∀ B, (unbounded B).cuts = 0
  objectiveValue_unbounded : ∀ B, (unbounded B).objectiveValue = none

/-- The primal method shows the verdict of its stage. -/
theorem shownAs_primal : ShownAs SimplexStatus.ofPrimal Solution.unbounded :=
  ⟨rfl, fun _ => rfl, fun _ => rfl, fun _ => rfl⟩

/-- The dual method shows an unbounded stage as an infeasible program. -/
theorem shownAs_dual : ShownAs SimplexStatus.ofDual fun _ => .infeasible 0 :=
  ⟨rfl, fun _ => rfl, fun _ => rfl, fun _ => rfl⟩

/-- What is shown of a stage has its status, no cuts, and the objective value that was reported. -/
theorem ShownAs.reports {status : SimplexStatus → Status} {unbounded : Basis → Solution} {columns : ℕ}
    {run : Run SimplexStatus} (hshown : ShownAs status unbounded)
    (h : stageSolution A unbounded columns run = .ok solution) :
    solution.status = status run.result ∧ solution.cuts = 0 ∧
      Reports A run.tableau (run.result = .optimal) solution.objectiveValue := by
  rcases stageSolution_cases h with ⟨hresult, hoptimal⟩ | ⟨hresult, rfl⟩
  · rw [hresult, hshown.status_optimal]
    exact Solution.reports_optimal rfl hoptimal
  · rw [hresult, hshown.status_unbounded, hshown.cuts_unbounded, hshown.objectiveValue_unbounded]
    exact ⟨rfl, rfl, nofun⟩

/-- The cuts are counted by the constraints that have been added; only in an unbounded program they are not
counted, and there are none. -/
theorem integerSolution_reports {status : IntegerStatus} {cuts : ℕ} {events : List Event}
    (hword : CuttingPlaneWord A U status cuts events) (hgrown : T.GrownBy U cuts)
    (h : integerSolution A T.columns T.constraints status U B = .ok solution) :
    solution.status = status.ofCuts ∧ solution.cuts = cuts ∧
      Reports A U (status = .optimal) solution.objectiveValue := by
  have hcuts : U.constraints - T.constraints = cuts := by
    rw [hgrown.constraints, Nat.add_sub_cancel_left]
  unfold integerSolution at h
  rw [hcuts] at h
  cases status with
  | optimal => exact Solution.reports_optimal rfl h
  | unbounded =>
      cases pure_eq_ok.mp h
      exact ⟨rfl, hword.cuts_of_unbounded.symm, nofun⟩
  | infeasible =>
      cases pure_eq_ok.mp h
      exact ⟨rfl, rfl, nofun⟩

/-! ## Methods -/

/-- A method of one stage recounts the stage, if the events of the stage are a word of the method. -/
theorem solveStage_recounted {method : Method} {stage : Stage} {rule : Rule}
    {status : SimplexStatus → Status} {unbounded : Basis → Solution} (hshown : ShownAs status unbounded)
    (hword : ∀ {U verdict events}, SimplexWord A stage U verdict events →
      SolveWord A U method (status verdict) 0 events)
    (h : solveStage A stage rule unbounded budget S T = .ok solved)
    (hresult : solved.result = .ok solution) : Recounts A method T solved solution := by
  rcases solveStage_ok h hresult with ⟨B, run, -, hrun, hsolution, rfl⟩
  rcases hshown.reports hsolution with ⟨hstatus, hcuts, hreports⟩
  have hstage := runStage_word hrun
  rcases hstage.last with ⟨earlier, outcome, objective, hevents, hlast⟩
  obtain rfl := hlast.unique hreports
  refine ⟨?_, ?_, ?_, earlier, _, outcome, hevents⟩
  · rw [hstatus, hcuts]
    exact hword hstage
  · rw [hcuts]
    exact hstage.cuts
  · rw [hcuts]
    exact (runStage_sizes hrun).grownBy

/-- Phase one and the primal method after it recount the solve together. -/
theorem solveTwoPhase_recounted (h : solveTwoPhase A budget T = .ok solved)
    (hresult : solved.result = .ok solution) : Recounts A .twoPhase T solved solution := by
  rcases solveTwoPhase_cases h with ⟨first, hfirst, hcases⟩
  have hfirstSizes := (Tableau.phaseOne_sizes hfirst).grownBy
  rcases hcases with ⟨e, -, rfl⟩ | ⟨hinfeasible, rfl⟩ | ⟨run, shown, hfeasible, hrun, hshown, rfl⟩
  · cases hresult
  · cases hresult
    have hfirstWord := Tableau.phaseOne_word hfirst hinfeasible
    rcases hfirstWord.last_infeasible with ⟨earlier, hevents⟩
    exact ⟨.infeasible hfirstWord, hfirstWord.cuts, hfirstSizes, earlier, _, _, hevents⟩
  · cases hresult
    have hfirstWord := Tableau.phaseOne_word hfirst hfeasible
    have hword := runStage_word hrun
    rcases shownAs_primal.reports hshown with ⟨hstatus, hcuts, hreports⟩
    rcases hword.last with ⟨earlier, outcome, objective, hevents, hlast⟩
    obtain rfl := hlast.unique hreports
    refine ⟨?_, ?_, ?_, first.events ++ earlier, .primal, outcome, ?_⟩
    · rw [hstatus, hcuts]
      exact .twoPhase hfirstWord hword
    · rw [hcuts]
      exact (cutsAmong_append _ _).trans (by rw [hfirstWord.cuts, hword.cuts])
    · rw [hcuts]
      exact hfirstSizes.trans (runStage_sizes hrun).grownBy
    · rw [hevents, List.append_assoc]

/-- The stages within cutting planes recount the solve. -/
theorem solveInteger_recounted (h : solveInteger A budget T = .ok solved)
    (hresult : solved.result = .ok solution) : Recounts A .cuttingPlane T solved solution := by
  rcases solveInteger_cases h with ⟨run, hrun, ⟨e, -, rfl⟩ | ⟨status, shown, hstatus, hshown, rfl⟩⟩
  · cases hresult
  · cases hresult
    rcases Tableau.cuttingPlane_word hrun hstatus with ⟨cuts, hword, hgrown⟩
    rcases integerSolution_reports hword hgrown hshown with ⟨hshownStatus, rfl, hreports⟩
    rcases hword.last with ⟨earlier, outcome, objective, hevents, hlast⟩
    obtain rfl := hlast.unique hreports
    refine ⟨?_, hword.cuts, hgrown, earlier, _, outcome, hevents⟩
    rw [hshownStatus]
    exact .cuttingPlane hword

/-- Whatever the method, the tableau and the arithmetic, the events of a solve that returns a solution
recount it. -/
theorem solve_recounted (hsolve : S.solve A budget T = .ok solved)
    (hresult : solved.result = .ok solution) : Recounts A S.method T solved solution := by
  unfold solve at hsolve
  cases hmethod : S.method with
  | simplex =>
      rw [hmethod] at hsolve
      exact solveStage_recounted shownAs_primal .simplex ((solvePrimal_eq ..).symm.trans hsolve) hresult
  | twoPhase =>
      rw [hmethod] at hsolve
      exact solveTwoPhase_recounted hsolve hresult
  | dualSimplex =>
      rw [hmethod] at hsolve
      exact solveStage_recounted shownAs_dual .dualSimplex ((solveDual_eq ..).symm.trans hsolve) hresult
  | cuttingPlane =>
      rw [hmethod] at hsolve
      exact solveInteger_recounted hsolve hresult

/-- A solve with a cut: one constraint is added, and the optimum is the last report. -/
theorem solve_recounted_halves :
    ∃ solved, solve .exact 5 ⟨.cuttingPlane, none⟩ halves = .ok solved ∧
      SolveWord .exact solved.tableau .cuttingPlane .optimal 1 solved.events ∧
      solved.tableau.constraints = 2 ∧
      ∃ earlier stage outcome,
        solved.events = earlier ++ [.finished stage outcome (some ⟨-1, 1⟩)] := by
  have hanswer : (solve .exact 5 ⟨.cuttingPlane, none⟩ halves).map (fun solved => solved.result) =
      .ok (.ok ⟨.optimal, some ⟨-1, 1⟩, ⟨[1, 2]⟩, [⟨1, 1⟩, ⟨1, 1⟩], 1⟩) := by
    decide +kernel
  rcases map_eq_ok.mp hanswer with ⟨solved, hsolve, hresult⟩
  have hrecounts := solve_recounted hsolve hresult
  exact ⟨solved, hsolve, hrecounts.word, hrecounts.grown.constraints, hrecounts.last⟩

end Solver
end ExactSimplex
