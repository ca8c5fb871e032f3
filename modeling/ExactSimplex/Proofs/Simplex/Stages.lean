import ExactSimplex.Proofs.Simplex.Frames

/-!
# Stages and the sizes of their tableaux

Pivots, pricing out and the copying of rows keep the sizes of a tableau; a cut adds a constraint.  So the
number of constraints tells whether a cutting plane run has come past its first cut.  Nothing here depends
on the arithmetic.

Main results:

- Theorem {lit}`Tableau.phaseOne_unchanged`: without a feasible basis, tableau and basis are left as they were.
- Theorem {lit}`Tableau.cutRounds_constraints`: rounds that end without a feasible point have added a cut.
- Theorem {lit}`Tableau.cutFromStart_infeasible`: a cutting plane run that finds no feasible point has
  added a cut or left the tableau as it was.
- Theorem {lit}`Tableau.cutFromStart_of_cuttingPlane`: the frame of a stage does not touch its state.
-/

namespace ExactSimplex

open Calc

variable {A : Arithmetic} {budget : ℕ} {T : Tableau} {B : Basis}

/-! ## Sizes -/

/-- A stage keeps the sizes. -/
theorem runStage_sizes {stage : Stage} {rule : Rule} {run : Run SimplexStatus}
    (h : runStage A stage rule budget T B = .ok run) : Tableau.SameSizes T run.tableau := by
  rcases runStage_frame h with ⟨inner, objective, hinner, -, rfl⟩
  exact (runRule_sizes A hinner).1

namespace Tableau

/-- Pricing out pivots once for each row, by induction on their number. -/
theorem priceOut_sizes {T U : Tableau} {column : ℕ → Calc ℕ} {row count : ℕ}
    (h : priceOut A column row count T = .ok U) : SameSizes T U := by
  induction count generalizing row T with
  | zero =>
      cases pure_eq_ok.mp h
      exact SameSizes.refl _
  | succ count ih =>
      rcases bind_eq_ok.mp h with ⟨entering, -, h⟩
      rcases bind_eq_ok.mp h with ⟨V, hV, h⟩
      exact (pivot_sizes A hV).trans (ih h)

/-- Rows are copied one by one, by induction on their number. -/
theorem copyRows_sizes {source T U : Tableau} {row count : ℕ}
    (h : copyRows source row count T = .ok U) : SameSizes T U := by
  induction count generalizing row T with
  | zero =>
      cases pure_eq_ok.mp h
      exact SameSizes.refl _
  | succ count ih =>
      rcases bind_eq_ok.mp h with ⟨entries, -, h⟩
      exact (sameSizes_setRow T row _).trans (ih h)

/-- Phase one changes tableau and basis only when it finds a feasible basis. -/
theorem phaseOne_unchanged {run : Run (Except SolveError Feasibility)}
    (h : phaseOne A budget T B = .ok run) (hresult : run.result ≠ .ok .feasible) :
    run.tableau = T ∧ run.basis = B := by
  rcases phaseOne_parts h with ⟨_, _, _, _, -, -, -, -, hend⟩
  cases hend with
  | infeasible _ => exact ⟨rfl, rfl⟩
  | dependent _ _ _ => exact ⟨rfl, rfl⟩
  | feasible _ _ _ _ _ _ => exact absurd rfl hresult

/-- Phase one keeps the sizes. -/
theorem phaseOne_sizes {run : Run (Except SolveError Feasibility)}
    (h : phaseOne A budget T B = .ok run) : SameSizes T run.tableau := by
  rcases phaseOne_parts h with ⟨_, _, _, _, -, -, -, -, hend⟩
  cases hend with
  | infeasible _ => exact SameSizes.refl T
  | dependent _ _ _ => exact SameSizes.refl T
  | feasible _ _ _ hcopied hsolved _ => exact (copyRows_sizes hcopied).trans (priceOut_sizes hsolved)

/-! ## Cutting planes -/

/-- Every round adds a constraint before the dual method may find no feasible point, by induction on the
number of rounds. -/
theorem cutRounds_constraints {rounds round : ℕ} {run : Run IntegerStatus}
    (h : cutRounds A budget rounds round T B = .ok run) :
    T.constraints ≤ run.tableau.constraints ∧
      (run.result = .infeasible → T.constraints < run.tableau.constraints) := by
  induction rounds generalizing round T B run with
  | zero => cases h
  | succ rounds ih =>
      rcases cutRounds_cases h with ⟨-, rfl⟩ | ⟨source, s, inner, -, hcut, hinner, hcases⟩
      · exact ⟨Nat.le_refl _, nofun⟩
      · have hgrown : inner.tableau.constraints = T.constraints + 1 :=
          (runStage_sizes hinner).constraints.trans (addCut_sizes A hcut).2.1
        rcases hcases with ⟨-, rfl⟩ | ⟨rest, -, hrest, rfl⟩
        · simp only [hgrown]
          omega
        · have hle := (ih hrest).1
          simp only [Run.after]
          omega

/-- That there is no integer point is only found after a cut. -/
theorem relaxAndCut_infeasible {run : Run IntegerStatus} (h : relaxAndCut A budget T B = .ok run)
    (hresult : run.result = .infeasible) : T.constraints < run.tableau.constraints := by
  rcases relaxAndCut_cases h with ⟨inner, hinner, ⟨-, rfl⟩ | ⟨rest, -, hrest, rfl⟩⟩
  · cases hresult
  · have hlt := (cutRounds_constraints hrest).2 hresult
    rwa [(runStage_sizes hinner).constraints] at hlt

/-- A cutting plane run fails only in phase one. -/
theorem cutFromStart_error {run : Run (Except SolveError IntegerStatus)} {e : SolveError}
    (h : cutFromStart A budget T B = .ok run) (hresult : run.result = .error e) :
    ∃ first : Run (Except SolveError Feasibility), phaseOne A budget T B = .ok first ∧
      first.result = .error e ∧ run = { first with result := .error e } := by
  rcases cutFromStart_cases h with ⟨_, _, -, -, rfl⟩ |
    ⟨first, -, hfirst, ⟨e', hfailed, rfl⟩ | ⟨-, rfl⟩ | ⟨_, -, -, rfl⟩⟩
  · cases hresult
  · cases hresult
    exact ⟨first, hfirst, hfailed, rfl⟩
  · cases hresult
  · cases hresult

/-- Either phase one finds that there is no feasible point, and nothing was written, or a cut was made. -/
theorem cutFromStart_infeasible {run : Run (Except SolveError IntegerStatus)}
    (h : cutFromStart A budget T B = .ok run) (hresult : run.result = .ok .infeasible) :
    run.tableau = T ∨ T.constraints < run.tableau.constraints := by
  rcases cutFromStart_cases h with ⟨found, inner, -, hinner, rfl⟩ |
    ⟨first, -, hfirst, ⟨e, -, rfl⟩ | ⟨hinfeasible, rfl⟩ | ⟨inner, -, hinner, rfl⟩⟩
  · exact Or.inr (relaxAndCut_infeasible hinner (Except.ok.inj hresult))
  · cases hresult
  · have hne : first.result ≠ .ok .feasible := by simp [hinfeasible]
    exact Or.inl (phaseOne_unchanged hfirst hne).1
  · have hlt := relaxAndCut_infeasible hinner (Except.ok.inj hresult)
    rw [(phaseOne_sizes hfirst).constraints] at hlt
    exact Or.inr hlt

/-- The stage of cutting planes is that from its start in a frame of events. -/
theorem cutFromStart_of_cuttingPlane {run : Run (Except SolveError IntegerStatus)}
    (h : T.cuttingPlane A budget B = .ok run) :
    ∃ inner, T.cutFromStart A budget B = .ok inner ∧ run.result = inner.result ∧
      run.tableau = inner.tableau ∧ run.basis = inner.basis := by
  rcases cuttingPlane_frame h with ⟨inner, hinner, ⟨_, -, rfl⟩ | ⟨_, _, -, -, rfl⟩⟩
  · exact ⟨inner, hinner, rfl, rfl, rfl⟩
  · exact ⟨inner, hinner, rfl, rfl, rfl⟩

end Tableau
end ExactSimplex
