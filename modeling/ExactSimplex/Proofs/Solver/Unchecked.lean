import ExactSimplex.Proofs.Solver.PartOf
import ExactSimplex.Proofs.Solver.SafeSolve
import ExactSimplex.Proofs.Tableau.Reach

/-!
# Solves of unchecked data

Cut off or filled up with zeros, any data are those of a well shaped tableau.  A solve that returns does there
what it does on the data themselves.  So the basis of an optimum that it reports is canonical, whether or not
the data were checked against their sizes.

Main results:

- Theorem {lit}`Solver.exists_lastRun`: an optimum is read off the end of a run of the primal or the dual method.
- Theorem {lit}`Solver.canonicalHead_of_solve`: the basis of a reported optimum.
-/

namespace ExactSimplex

open Calc Fraction

variable {A : Arithmetic}

/-! ## Well shaped data -/

namespace Tableau

variable (T : Tableau)

/-- The tableau with its data cut off or filled up with zeros to its sizes. -/
def fitted : Tableau :=
  { T with entries := Array.ofFn fun k : Fin ((T.constraints + 1) * T.width) =>
      T.entries[k.val]?.getD Fraction.zero }

/-- The fitted tableau is well shaped. -/
theorem fitted_shaped : T.fitted.Shaped := by
  simp [Shaped, fitted, width]

/-- The data of the fitted tableau are those that there were, and zeros beyond them. -/
theorem getElem?_fitted {k : ℕ} (hk : k < (T.constraints + 1) * T.width) :
    T.fitted.entries[k]? = some (T.entries[k]?.getD Fraction.zero) := by
  simp [fitted, hk]

variable {T}

/-- What is filled up is part of the result. -/
theorem partOf_fitted (hsize : T.entries.size ≤ (T.constraints + 1) * T.width) : T.PartOf T.fitted := by
  refine ⟨rfl, rfl, fun k a hk => ?_⟩
  have hlt := (Array.getElem?_eq_some_iff.mp hk).1
  rw [T.getElem?_fitted (by omega), hk, Option.getD_some]

/-- The result of cutting off is part of what was there. -/
theorem fitted_partOf (hsize : (T.constraints + 1) * T.width ≤ T.entries.size) : T.fitted.PartOf T := by
  refine ⟨rfl, rfl, fun k a hk => ?_⟩
  have hlt := (Array.getElem?_eq_some_iff.mp hk).1
  rw [T.fitted_shaped] at hlt
  have hstored := Array.getElem?_eq_getElem (show k < T.entries.size from lt_of_lt_of_le hlt hsize)
  rw [T.getElem?_fitted hlt, hstored, Option.getD_some] at hk
  rw [hstored, hk]

/-- The fitted tableau stores proper fractions. -/
theorem stores_fitted (hA : A.holds 1 = true) (hentries : ∀ a ∈ T.entries, Built A a) :
    T.fitted.Stores A T.constraints T.columns T.fitted.cells := by
  refine stores_cells T.fitted_shaped fun a ha => ?_
  rcases Array.mem_iff_getElem?.mp ha with ⟨k, hk⟩
  have hlt := (Array.getElem?_eq_some_iff.mp hk).1
  rw [T.fitted_shaped] at hlt
  rw [T.getElem?_fitted hlt, Option.some.injEq] at hk
  subst hk
  cases hstored : T.entries[k]? with
  | none => exact .zero hA
  | some b => exact (hentries b (Array.mem_of_getElem? hstored)).proper hA

end Tableau

/-! ## Canonical heads -/

namespace CanonicalHead

variable {T U : Tableau} {B : Basis}

/-- What is canonical for a tableau is so for a larger one. -/
theorem partOf (hT : CanonicalHead A (T, B)) (h : T.PartOf U) : CanonicalHead A (U, B) where
  size := hT.size.trans h.constraints.symm
  nodup := hT.nodup
  range := by
    intro c hc
    dsimp only
    rw [h.columns]
    exact hT.range c hc
  canonical := by
    rcases (Tableau.persists_isCanonical h B).of_eq_ok hT.canonical with ⟨passed, hpassed, rfl⟩
    exact hpassed

/-- What is canonical for a larger tableau is so wherever its columns are not cut short. -/
theorem of_partOf (hU : CanonicalHead A (U, B)) (h : T.PartOf U) (hreach : ∀ c ∈ B.columns, T.Reaches c) :
    CanonicalHead A (T, B) where
  size := hU.size.trans h.constraints
  nodup := hU.nodup
  range := by
    intro c hc
    have hrange := hU.range c hc
    dsimp only at hrange
    rwa [h.columns] at hrange
  canonical := h.isCanonical hreach hU.canonical

end CanonicalHead

/-! ## The last run of a solve -/

namespace Solver

variable {T : Tableau} {S : Solver} {budget : ℕ} {solved : Solved} {solution : Solution}

/-- The rule of the last run of a solve that makes no cuts. -/
def lastRule (A : Arithmetic) (S : Solver) : Rule :=
  if S.method = .dualSimplex then Tableau.dualRule A else Tableau.primalRule A

/-- Where the last run of a solve that makes no cuts begins: at the starting basis, or where phase one found a
feasible one. -/
def LastStart (A : Arithmetic) (S : Solver) (T : Tableau) (s : State) : Prop :=
  (S.method ≠ .twoPhase ∧ s.1 = T ∧ S.startingBasis A T = .ok (.ok s.2)) ∨
    ∃ budget run, T.phaseOne A budget ⟨[]⟩ = .ok run ∧ run.result = .ok .feasible ∧
      s = (run.tableau, run.basis)

/-- The optimum is read off the end of the last run. -/
structure LastRun (A : Arithmetic) (S : Solver) (T : Tableau) (solution : Solution) (tableau : Tableau)
    (s : State) (run : Run SimplexStatus) : Prop where
  start : S.LastStart A T s
  trajectory : Trajectory A (S.lastRule A) s run
  result : run.result = .optimal
  tableau_eq : run.tableau = tableau
  sizes : Tableau.SameSizes T run.tableau
  optimal : Solution.optimal A run.tableau run.basis T.columns 0 = .ok solution

/-- A stage under the last rule, from where the last run may begin, is the last run. -/
theorem LastRun.of_runStage {s : State} {stage : Stage} {run : Run SimplexStatus} (hstart : S.LastStart A T s)
    (hsizes : Tableau.SameSizes T s.1) (hrun : runStage A stage (S.lastRule A) budget s.1 s.2 = .ok run)
    (hoptimal : run.result = .optimal ∧
      Solution.optimal A run.tableau run.basis T.columns 0 = .ok solution) :
    LastRun A S T solution run.tableau s run where
  start := hstart
  trajectory := runStage_trajectory hrun
  result := hoptimal.1
  tableau_eq := rfl
  sizes := hsizes.trans (runStage_sizes hrun)
  optimal := hoptimal.2

/-- The stage of a method of one stage is the last run. -/
theorem lastRun_of_solveStage {stage : Stage} {unbounded : Basis → Solution}
    (hmethod : S.method ≠ .twoPhase)
    (h : solveStage A stage (S.lastRule A) unbounded budget S T = .ok solved)
    (hunbounded : ∀ B, (unbounded B).status ≠ .optimal)
    (hresult : solved.result = .ok solution) (hstatus : solution.status = .optimal) :
    ∃ s run, LastRun A S T solution solved.tableau s run := by
  rcases solveStage_optimal h hunbounded hresult hstatus with
    ⟨B, run, hstart, hrun, hoptimal, hsolution, htableau⟩
  rw [htableau]
  exact ⟨(T, B), run, .of_runStage (Or.inl ⟨hmethod, rfl, hstart⟩) (.refl T) hrun ⟨hoptimal, hsolution⟩⟩

/-- The stage after phase one is the last run. -/
theorem lastRun_of_solveTwoPhase (hmethod : S.method = .twoPhase)
    (h : solveTwoPhase A budget T = .ok solved) (hresult : solved.result = .ok solution)
    (hstatus : solution.status = .optimal) : ∃ s run, LastRun A S T solution solved.tableau s run := by
  have hrule : S.lastRule A = Tableau.primalRule A := by simp [lastRule, hmethod]
  rcases solveTwoPhase_cases h with
    ⟨first, hfirst, ⟨e, -, rfl⟩ | ⟨-, rfl⟩ | ⟨run, shown, hfeasible, hrun, hshown, rfl⟩⟩
  · cases hresult
  · cases hresult
    cases hstatus
  · cases hresult
    rw [← hrule] at hrun
    rcases stageSolution_cases hshown with hoptimal | ⟨-, rfl⟩
    · exact ⟨(first.tableau, first.basis), run, .of_runStage
        (Or.inr ⟨budget, first, hfirst, hfeasible, rfl⟩) (Tableau.phaseOne_sizes hfirst) hrun hoptimal⟩
    · cases hstatus

/-- Without cuts, a reported optimum is read off the end of a run of the primal or the dual method. -/
theorem exists_lastRun (hmethod : S.method ≠ .cuttingPlane) (h : S.solve A budget T = .ok solved)
    (hresult : solved.result = .ok solution) (hstatus : solution.status = .optimal) :
    ∃ s run, LastRun A S T solution solved.tableau s run := by
  unfold solve at h
  cases hS : S.method with
  | simplex =>
      have hrule : S.lastRule A = Tableau.primalRule A := by simp [lastRule, hS]
      rw [hS, solvePrimal_eq, ← hrule] at h
      exact lastRun_of_solveStage (by simp [hS]) h (fun _ => nofun) hresult hstatus
  | twoPhase =>
      rw [hS] at h
      exact lastRun_of_solveTwoPhase hS h hresult hstatus
  | dualSimplex =>
      have hrule : S.lastRule A = Tableau.dualRule A := by simp [lastRule, hS]
      rw [hS, solveDual_eq, ← hrule] at h
      exact lastRun_of_solveStage (by simp [hS]) h (fun _ => nofun) hresult hstatus
  | cuttingPlane => exact absurd hS hmethod

namespace LastRun

variable {U : Tableau} {s : State} {run : Run SimplexStatus}

/-- The basis of the solution is the last basis of the run. -/
theorem basis_eq (h : LastRun A S T solution U s run) : solution.basis = run.basis := by
  rcases bind_eq_ok.mp h.optimal with ⟨values, -, hoptimal⟩
  rcases bind_eq_ok.mp hoptimal with ⟨objective, -, hoptimal⟩
  cases pure_eq_ok.mp hoptimal
  rfl

/-- If the data are too short for phase one, the run begins at a basis whose columns are not cut short, and so
it ends at one. -/
theorem reaches (h : LastRun A S T solution U s run) (hconstraints : T.constraints ≠ 0)
    (hshort : T.entries.size < (T.constraints + 1) * T.width) :
    ∀ c ∈ solution.basis.columns, U.Reaches c := by
  rw [h.basis_eq, ← h.tableau_eq]
  refine h.trajectory.reaches ?_
  rcases h.start with ⟨-, htableau, hstart⟩ | ⟨budget, first, hfirst, -, -⟩
  · rw [htableau]
    unfold startingBasis at hstart
    cases hbasis : S.basis with
    | some given =>
        rw [hbasis] at hstart
        rcases bind_eq_ok.mp hstart with ⟨defect, hdefect, hstart⟩
        cases defect with
        | some defect => cases pure_eq_ok.mp hstart
        | none =>
            obtain rfl := Except.ok.inj (pure_eq_ok.mp hstart)
            exact Tableau.reaches_of_isCanonical (Tableau.basisDefect_eq_none_iff.mp hdefect).2.2.2
    | none =>
        rw [hbasis] at hstart
        rcases bind_eq_ok.mp hstart with ⟨found, hfound, hstart⟩
        cases found with
        | none => cases pure_eq_ok.mp hstart
        | some found =>
            obtain rfl := Except.ok.inj (pure_eq_ok.mp hstart)
            exact Tableau.reaches_of_startingBasis hfound
  · have := Tableau.size_le_of_phaseOne hfirst
    omega

end LastRun

/-! ## The basis of an optimum -/

/-- The basis of a reported optimum is canonical for the final tableau, however much data there are. -/
theorem canonicalHead_of_solve (hA : A.holds 1 = true) (hentries : ∀ a ∈ T.entries, Built A a)
    (hmethod : S.method ≠ .cuttingPlane) (h : S.solve A budget T = .ok solved)
    (hresult : solved.result = .ok solution) (hstatus : solution.status = .optimal) :
    CanonicalHead A (solved.tableau, solution.basis) := by
  have hsafe := (Tableau.stores_fitted hA hentries).safe_solve hA budget S
  rcases Nat.lt_or_ge T.entries.size ((T.constraints + 1) * T.width) with hshort | hlong
  · -- The data end too early: the solve returns the same on the data that were filled up.
    have hfitted := persists_solve (A := A) (Tableau.partOf_fitted hshort.le) S budget hmethod
    rcases hfitted.of_eq_ok h with ⟨solved', hsolved', hpart⟩
    have hhead := hsafe.of_eq_ok hsolved' solution (hpart.result.trans hresult) hstatus
    rcases exists_lastRun hmethod h hresult hstatus with ⟨s, run, hlast⟩
    have hsize : solution.basis.columns.length = T.constraints := by
      have hconstraints := hlast.sizes.constraints
      rw [hlast.tableau_eq] at hconstraints
      exact hhead.size.trans (hpart.tableau.constraints.trans hconstraints)
    refine hhead.of_partOf hpart.tableau fun c hc => hlast.reaches (fun hzero => ?_) hshort c hc
    -- Without constraints there is no basic column.
    rw [hzero, List.length_eq_zero_iff] at hsize
    rw [hsize] at hc
    cases hc
  · -- The data go on: the solve on the data that were cut off never leaves them.
    have hfitted := persists_solve (A := A) (Tableau.fitted_partOf hlong) S budget hmethod
    have hinside : S.solve A budget T.fitted ≠ .error .outOfRange := fun hfault => hsafe.excused hfault
    rcases hfitted.exists_eq_ok hinside h with ⟨solved', hsolved', hpart⟩
    have hhead := hsafe.of_eq_ok hsolved' solution (hpart.result.symm.trans hresult) hstatus
    exact hhead.partOf hpart.tableau

end Solver
end ExactSimplex
