import ExactSimplex.Proofs.Simplex.EventWords
import ExactSimplex.Proofs.Solver.Heads
import ExactSimplex.Proofs.Solver.Methods

/-!
# Canonical bases in any arithmetic

The iterations that a solve reports are states at the heads of its loops.  Together with the safety of a
solve this says all that wrapped results cannot spoil: the bases stay canonical, no pivot is on zero, and
no index lies beyond the data.

Main results:

- Theorem {lit}`Solver.Visits.of_trajectory`: a run from the head of a loop stays at its heads.
- Theorem {lit}`Solver.visits_of_mem_snapshots`: the iterations that a solve reports are heads of its loops.
- Theorem {lit}`Solver.solve_keeps_canonical`: the bases of a solve are canonical in any arithmetic.
-/

namespace ExactSimplex
namespace Solver

open Calc Fraction

variable {A : Arithmetic} {S : Solver} {T : Tableau} {loop : Loop} {s : State} {budget : ℕ}

/-! ## Stages -/

/-- The states of a run from the head of a loop are heads of the loop, and so is its end. -/
theorem Visits.of_trajectory (hs : S.Visits A T loop s) {run : Run SimplexStatus}
    (h : Trajectory A (loop.rule A) s run) :
    (∀ s' ∈ snapshots run.events, S.Visits A T loop s') ∧
      S.Visits A T loop (run.tableau, run.basis) := by
  have hall := h.forall_of_step (p := S.Visits A T loop) (fun _ _ hs hstep => hs.step hstep) hs
  exact ⟨hall, hall _ (List.mem_of_getLast? h.finish)⟩

/-- The iterations of phase one are those of the artificial program. -/
theorem visits_of_phaseOne (hphase : S.RunsPhaseOne A T) {B : Basis}
    {run : Run (Except SolveError Feasibility)} (h : T.phaseOne A budget B = .ok run) :
    ∀ s ∈ snapshots run.events, S.Visits A T .artificial s := by
  rcases Tableau.phaseOne_parts h with ⟨start, priced, inner, _, hstart, hpriced, hinner, -, hend⟩
  have hvisits : S.Visits A T .artificial (priced, T.artificialBasis) :=
    .artificial hphase hstart hpriced
  have hinside := (hvisits.of_trajectory (runStage_trajectory hinner)).1
  have hsame : snapshots run.events = snapshots inner.events := by
    cases hend with
    | infeasible _ => simp [snapshots_append, snapshots]
    | dependent _ _ hdrive => exact Tableau.snapshots_driveOut hdrive
    | feasible _ _ hdrive _ _ _ =>
        rw [snapshots_append, Tableau.snapshots_driveOut hdrive]
        simp [snapshots]
  rw [hsame]
  exact hinside

/-- The iterations of the rounds follow an optimum of a loop on the program, by induction on the number of
rounds. -/
theorem visits_of_cutRounds (hmethod : S.method = .cuttingPlane) {rounds round : ℕ}
    {run : Run IntegerStatus} (hloop : loop ≠ .artificial) (hs : S.Visits A T loop s)
    (hstop : loop.rule A s.1 s.2 = .ok (.stop .optimal))
    (h : Tableau.cutRounds A budget rounds round s.1 s.2 = .ok run) :
    ∀ s' ∈ snapshots run.events, ∃ loop, S.Visits A T loop s' := by
  induction rounds generalizing round loop s run with
  | zero => cases h
  | succ rounds ih =>
      rcases Tableau.cutRounds_cases h with ⟨-, rfl⟩ | ⟨source, s', inner, hfound, hcut, hinner, hcases⟩
      · intro s' hs'
        cases hs'
      · have htrajectory := runStage_trajectory hinner
        -- The tableau with the cut is the start of a stage of the dual method.
        have hvisits : S.Visits A T .dual s' := .cut hmethod hloop hs hstop hfound hcut
        rcases hvisits.of_trajectory htrajectory with ⟨hinside, hend⟩
        have hstops := htrajectory.stops
        rcases hcases with ⟨-, rfl⟩ | ⟨rest, hresult, hrest, rfl⟩
        · exact fun s'' hs'' => ⟨.dual, hinside s'' hs''⟩
        · rw [hresult] at hstops
          have hrounds := ih (by decide) hend hstops hrest
          intro s'' hs''
          simp only [Run.after, List.cons_append, snapshots, snapshots_append, List.mem_append] at hs''
          rcases hs'' with hs'' | hs''
          · exact ⟨.dual, hinside s'' hs''⟩
          · exact hrounds s'' hs''

/-- The iterations of the relaxed program and its rounds are heads of loops. -/
theorem visits_of_relaxAndCut (hmethod : S.method = .cuttingPlane) {run : Run IntegerStatus}
    (hs : S.Visits A T .primal s) (h : Tableau.relaxAndCut A budget s.1 s.2 = .ok run) :
    ∀ s' ∈ snapshots run.events, ∃ loop, S.Visits A T loop s' := by
  rcases Tableau.relaxAndCut_cases h with ⟨inner, hinner, hcases⟩
  have htrajectory := runStage_trajectory hinner
  rcases hs.of_trajectory htrajectory with ⟨hinside, hend⟩
  have hstops := htrajectory.stops
  rcases hcases with ⟨-, rfl⟩ | ⟨rest, hresult, hrest, rfl⟩
  · exact fun s' hs' => ⟨.primal, hinside s' hs'⟩
  · rw [hresult] at hstops
    have hrounds := visits_of_cutRounds hmethod (by decide) hend hstops hrest
    intro s' hs'
    rw [Run.after, snapshots_append, List.mem_append] at hs'
    rcases hs' with hs' | hs'
    · exact ⟨.primal, hinside s' hs'⟩
    · exact hrounds s' hs'

/-- So are all iterations of cutting planes, those of phase one included. -/
theorem visits_of_cutFromStart (hmethod : S.method = .cuttingPlane)
    {run : Run (Except SolveError IntegerStatus)} (h : T.cutFromStart A budget ⟨[]⟩ = .ok run) :
    ∀ s ∈ snapshots run.events, ∃ loop, S.Visits A T loop s := by
  rcases Tableau.cutFromStart_cases h with ⟨found, inner, hfound, hinner, rfl⟩ |
    ⟨first, hnone, hfirst, hcases⟩
  · exact visits_of_relaxAndCut hmethod (.found hmethod hfound) hinner
  · have hphase : S.RunsPhaseOne A T := Or.inr ⟨hmethod, hnone⟩
    have hinside := visits_of_phaseOne hphase hfirst
    rcases hcases with ⟨e, -, rfl⟩ | ⟨-, rfl⟩ | ⟨inner, hfeasible, hinner, rfl⟩
    · exact fun s hs => ⟨.artificial, hinside s hs⟩
    · exact fun s hs => ⟨.artificial, hinside s hs⟩
    · have hrest := visits_of_relaxAndCut hmethod (.feasible hphase hfirst hfeasible) hinner
      intro s hs
      rw [Run.after, snapshots_append, List.mem_append] at hs
      rcases hs with hs | hs
      · exact ⟨.artificial, hinside s hs⟩
      · exact hrest s hs

/-! ## Methods -/

/-- The iterations of a method of one stage are heads of the loop that its starts are heads of. -/
theorem visits_of_solveStage {stage : Stage} {unbounded : Basis → Solution} {solved : Solved}
    (hstart : ∀ {B}, startingBasis A S T = .ok (.ok B) → S.Visits A T loop (T, B))
    (h : solveStage A stage (loop.rule A) unbounded budget S T = .ok solved) :
    ∀ s ∈ snapshots solved.events, S.Visits A T loop s := by
  rcases solveStage_cases h with ⟨e, -, rfl⟩ | ⟨B, run, solution, hfound, hrun, -, rfl⟩
  · intro s hs
    cases hs
  · exact ((hstart hfound).of_trajectory (runStage_trajectory hrun)).1

/-- The iterations of both phases are heads of their loops. -/
theorem visits_of_solveTwoPhase (hmethod : S.method = .twoPhase) {solved : Solved}
    (h : solveTwoPhase A budget T = .ok solved) :
    ∀ s ∈ snapshots solved.events, ∃ loop, S.Visits A T loop s := by
  have hphase : S.RunsPhaseOne A T := Or.inl hmethod
  rcases solveTwoPhase_cases h with ⟨first, hfirst, hcases⟩
  have hinside := visits_of_phaseOne hphase hfirst
  rcases hcases with ⟨e, -, rfl⟩ | ⟨-, rfl⟩ | ⟨run, solution, hfeasible, hrun, -, rfl⟩
  · exact fun s hs => ⟨.artificial, hinside s hs⟩
  · exact fun s hs => ⟨.artificial, hinside s hs⟩
  · have hvisits : S.Visits A T .primal (first.tableau, first.basis) :=
      .feasible hphase hfirst hfeasible
    have hrest := (hvisits.of_trajectory (runStage_trajectory hrun)).1
    intro s hs
    rw [snapshots_append, List.mem_append] at hs
    rcases hs with hs | hs
    · exact ⟨.artificial, hinside s hs⟩
    · exact ⟨.primal, hrest s hs⟩

/-- The frame of the cutting plane method reports no iteration. -/
theorem visits_of_cuttingPlane (hmethod : S.method = .cuttingPlane)
    {run : Run (Except SolveError IntegerStatus)} (h : T.cuttingPlane A budget ⟨[]⟩ = .ok run) :
    ∀ s ∈ snapshots run.events, ∃ loop, S.Visits A T loop s := by
  obtain ⟨inner, hinner, hsame⟩ : ∃ inner, T.cutFromStart A budget ⟨[]⟩ = .ok inner ∧
      snapshots run.events = snapshots inner.events := by
    rcases Tableau.cuttingPlane_frame h with ⟨inner, hinner, ⟨_, -, rfl⟩ | ⟨_, _, -, -, rfl⟩⟩
    · exact ⟨inner, hinner, rfl⟩
    · exact ⟨inner, hinner, by simp [snapshots_append, snapshots]⟩
  rw [hsame]
  exact visits_of_cutFromStart hmethod hinner

/-- The iterations of a solve by cutting planes are heads of its loops. -/
theorem visits_of_solveInteger (hmethod : S.method = .cuttingPlane) {solved : Solved}
    (h : solveInteger A budget T = .ok solved) :
    ∀ s ∈ snapshots solved.events, ∃ loop, S.Visits A T loop s := by
  rcases solveInteger_cases h with ⟨run, hrun, ⟨e, -, rfl⟩ | ⟨status, solution, -, -, rfl⟩⟩
  · exact visits_of_cuttingPlane hmethod hrun
  · exact visits_of_cuttingPlane hmethod hrun

/-- The iterations that a solve reports are heads of its loops. -/
theorem visits_of_mem_snapshots {solved : Solved} (h : S.solve A budget T = .ok solved) :
    ∀ s ∈ snapshots solved.events, ∃ loop, S.Visits A T loop s := by
  unfold Solver.solve at h
  cases hmethod : S.method with
  | simplex =>
      rw [hmethod] at h
      have hstage := (solvePrimal_eq ..).symm.trans h
      exact fun s hs => ⟨.primal, visits_of_solveStage (.simplex hmethod) hstage s hs⟩
  | twoPhase =>
      rw [hmethod] at h
      exact visits_of_solveTwoPhase hmethod h
  | dualSimplex =>
      rw [hmethod] at h
      have hstage := (solveDual_eq ..).symm.trans h
      exact fun s hs => ⟨.dual, visits_of_solveStage (.dualSimplex hmethod) hstage s hs⟩
  | cuttingPlane =>
      rw [hmethod] at h
      exact visits_of_solveInteger hmethod h

/-! ## Canonical bases -/

/-- Whatever wraps in a solve of a well shaped tableau of built fractions, the basis is canonical at every
head of a loop and every pivot is on a nonzero cell.  No index ever lies beyond the data: a solve returns,
or its budget is spent, or the arithmetic refuses a result, which in a word is only the greatest common
divisor of two least words.  The iterations that are reported are such heads, and the basis of a reported
optimum is canonical for the final tableau. -/
theorem solve_keeps_canonical (hA : A.holds 1 = true) (hT : T.Shaped)
    (hentries : ∀ a ∈ T.entries, Built A a) (S : Solver) :
    (∀ loop s, S.Visits A T loop s → CanonicalHead A s) ∧
      (∀ U h t, S.Pivots A T U h t → ∃ element, U.get t h = .ok element ∧ element.isZero = false) ∧
      (∀ budget fault, S.solve A budget T = .error fault →
        fault = .budgetSpent ∨ ∃ n, fault = .overflow n ∧ A.Refuses n) ∧
      ∀ budget solved, S.solve A budget T = .ok solved →
        (∀ s ∈ snapshots solved.events, ∃ loop, S.Visits A T loop s) ∧
          ∀ solution, solved.result = .ok solution → solution.status = .optimal →
            CanonicalHead A (solved.tableau, solution.basis) := by
  have hstores := T.stores_cells hT fun a ha => (hentries a ha).proper hA
  refine ⟨fun loop s hs => ?_, fun U h t hpivot => hpivot.isZero_eq_false hA hstores,
    fun budget fault hfault => ?_, fun budget solved hsolved => ?_⟩
  · rcases hs.soundState hA hstores with ⟨m, n, hs, -⟩
    exact hs.canonicalHead hA
  · exact Fault.excused_iff.mp ((hstores.safe_solve hA budget S).excused hfault)
  · exact ⟨visits_of_mem_snapshots hsolved, (hstores.safe_solve hA budget S).of_eq_ok hsolved⟩

/-- A program whose pivots have products beyond a word of 32 bits. -/
def overflowing : Tableau where
  columns := 3
  constraints := 2
  entries := #[⟨0, 1⟩, ⟨-1, 1⟩, ⟨-1, 1⟩, ⟨0, 1⟩, ⟨65537, 1⟩, ⟨65537, 1⟩, ⟨1, 1⟩, ⟨1, 1⟩,
    ⟨65536, 1⟩, ⟨1, 1⟩, ⟨65537, 1⟩, ⟨0, 1⟩]

/-- Wrapped results lead to a wrong optimum here, one of zero in place of about minus two, but the bases
of all five iterations and of the answer are canonical. -/
theorem solve_keeps_canonical_overflowing :
    ∃ solved solution,
      (⟨.twoPhase, none⟩ : Solver).solve (.wrapping 32) 9 overflowing = .ok solved ∧
        solved.result = .ok solution ∧ solution.objectiveValue = some Fraction.zero ∧
          (snapshots solved.events).length = 5 ∧
            (∀ s ∈ snapshots solved.events, CanonicalHead (.wrapping 32) s) ∧
              CanonicalHead (.wrapping 32) (solved.tableau, solution.basis) := by
  have hintegers : ∀ a ∈ overflowing.entries,
      a = Fraction.ofInt a.num ∧ (Arithmetic.wrapping 32).holds a.num = true := by
    decide +kernel
  have hentries : ∀ a ∈ overflowing.entries, Built (.wrapping 32) a := by
    intro a ha
    rcases hintegers a ha with ⟨hinteger, hheld⟩
    rw [hinteger]
    exact .ofInt hheld
  rcases solve_keeps_canonical (A := .wrapping 32) (by decide) (T := overflowing) (by decide) hentries
    ⟨.twoPhase, none⟩ with ⟨hheads, -, -, hsolve⟩
  have hanswer : ((⟨.twoPhase, none⟩ : Solver).solve (.wrapping 32) 9 overflowing).map (fun solved =>
      (solved.result.map fun solution => (solution.status, solution.objectiveValue),
        (snapshots solved.events).length)) =
      .ok (.ok (.optimal, some Fraction.zero), 5) := by
    decide +kernel
  cases hsolved : (⟨.twoPhase, none⟩ : Solver).solve (.wrapping 32) 9 overflowing with
  | error fault =>
      rw [hsolved] at hanswer
      cases hanswer
  | ok solved =>
      rw [hsolved] at hanswer
      rcases hsolve 9 solved hsolved with ⟨hreported, hend⟩
      rcases solved with ⟨e | solution, tableau, events⟩
      · cases hanswer
      · rw [Except.map, Except.ok.injEq, Prod.mk.injEq, Except.map, Except.ok.injEq,
          Prod.mk.injEq] at hanswer
        rcases hanswer with ⟨⟨hstatus, hobjective⟩, hlength⟩
        refine ⟨_, solution, rfl, rfl, hobjective, hlength, fun s hs => ?_, hend solution rfl hstatus⟩
        rcases hreported s hs with ⟨loop, hvisits⟩
        exact hheads loop s hvisits

end Solver
end ExactSimplex
