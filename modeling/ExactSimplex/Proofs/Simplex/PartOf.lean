import ExactSimplex.Proofs.Tableau.PartOf
import ExactSimplex.Simplex.Dual
import ExactSimplex.Simplex.PhaseOne
import ExactSimplex.Simplex.Primal

/-!
# Stages on tableaux whose data go on

Both methods and phase one look at their tableau and change it by pivots and by copying rows.  If they stay
within the data, they do the same on a tableau that stores more, and they end in the same basis.

Main results:

- Theorems {lit}`Tableau.persists_primalRule` and {lit}`Tableau.persists_dualRule`: the choices of the two methods.
- Theorem {lit}`persists_runStage`: a whole stage of such a rule.
- Theorem {lit}`Tableau.persists_phaseOne`: phase one.
-/

namespace ExactSimplex

open Calc

variable {A : Arithmetic} {T U : Tableau}

/-! ## Runs -/

/-- The second run has the same answer and the same basis, and its tableau stores what the first one's does. -/
structure Run.PartOf {α : Type} (run run' : Run α) : Prop where
  result : run'.result = run.result
  tableau : run.tableau.PartOf run'.tableau
  basis : run'.basis = run.basis

/-- A pivot reports the same on both tableaux and leaves one a part of the other. -/
theorem persists_takePivot (h : T.PartOf U) (B : Basis) (column row : ℕ) :
    Persists (fun r r' : Tableau × Basis × ℕ × Fraction => r.1.PartOf r'.1 ∧ r'.2 = r.2)
      (takePivot A T B column row) (takePivot A U B column row) := by
  refine (Persists.refl _).bind_same fun leaving => ?_
  refine (Tableau.persists_get h row column).bind_same fun element => ?_
  refine (Tableau.persists_pivot h column row .all).bind fun T' U' h' => ?_
  exact (Persists.refl _).bind_same fun B' => .pure ⟨h', rfl⟩

section Runs

variable {rule : Rule}
  (hrule : ∀ {T U : Tableau}, T.PartOf U → ∀ B, Persists Eq (rule T B) (rule U B)) (stage : Stage)

include hrule

/-- A run of a rule, by induction on the budget: the rule chooses the same pivot, which leaves one tableau a
part of the other. -/
theorem persists_runRule (h : T.PartOf U) (budget index : ℕ) (B : Basis) :
    Persists Run.PartOf (runRule A stage rule budget index T B)
      (runRule A stage rule budget index U B) := by
  induction budget generalizing index T U B with
  | zero => rfl
  | succ budget ih =>
      refine (hrule h B).bind_same fun choice => ?_
      cases choice with
      | stop status => exact .pure ⟨rfl, h, rfl⟩
      | pivot column row =>
          refine (persists_takePivot h B column row).bind ?_
          rintro ⟨T', B', leaving, element⟩ ⟨U', _⟩ ⟨h', rfl⟩
          refine (ih h' (index + 1) B').bind fun rest rest' hrest => ?_
          exact .pure ⟨hrest.result, hrest.tableau, hrest.basis⟩

/-- A stage has the same answer on both tableaux and leaves one a part of the other. -/
theorem persists_runStage (h : T.PartOf U) (budget : ℕ) (B : Basis) :
    Persists Run.PartOf (runStage A stage rule budget T B) (runStage A stage rule budget U B) := by
  refine (persists_runRule hrule stage h budget 0 B).bind fun run run' hrun => ?_
  rw [hrun.result]
  cases run.result with
  | unbounded => exact .pure ⟨rfl, hrun.tableau, hrun.basis⟩
  | optimal =>
      refine Persists.bind_same (Persists.map_eq (Tableau.persists_objectiveValue hrun.tableau)) fun z => ?_
      exact .pure ⟨rfl, hrun.tableau, hrun.basis⟩

end Runs

namespace Tableau

/-! ## The primal method -/

section Rules

variable (h : T.PartOf U)

include h

/-- The same column enters. -/
@[gcongr]
theorem persists_enteringColumn : Persists Eq T.enteringColumn U.enteringColumn := by
  unfold enteringColumn
  rw [h.columns]
  gcongr

/-- The ratio test, by induction on the number of rows that are left. -/
@[gcongr]
theorem persists_ratioTest (B : Basis) (column row count : ℕ) (best : Option (ℕ × Fraction)) :
    Persists Eq (ratioTest A T B column row count best) (ratioTest A U B column row count best) := by
  induction count generalizing row best with
  | zero => rfl
  | succ count ih =>
      unfold ratioTest
      gcongr with entry bound ratio
      · exact ih (row + 1) (some (row, ratio))
      · exact ih (row + 1) best
      · exact ih (row + 1) best

/-- The same row leaves. -/
@[gcongr]
theorem persists_pivotRow (B : Basis) (column : ℕ) :
    Persists Eq (pivotRow A T B column) (pivotRow A U B column) := by
  unfold pivotRow
  rw [h.constraints]
  gcongr

/-- The primal rule makes the same choice. -/
theorem persists_primalRule (B : Basis) : Persists Eq (primalRule A T B) (primalRule A U B) := by
  unfold primalRule
  gcongr with column
  cases column with
  | none => rfl
  | some column =>
      dsimp only
      gcongr

/-! ## The dual method -/

/-- The search for a leaving row, by induction on the number of rows that are left. -/
@[gcongr]
theorem persists_leavingRowFrom (B : Basis) (row count : ℕ) (best : Option (ℕ × ℕ)) :
    Persists Eq (leavingRowFrom T B row count best) (leavingRowFrom U B row count best) := by
  induction count generalizing row best with
  | zero => rfl
  | succ count ih =>
      unfold leavingRowFrom
      gcongr with value index
      · cases best with
        | none => exact ih (row + 1) _
        | some best =>
            dsimp only
            gcongr
            · exact ih (row + 1) _
            · exact ih (row + 1) _
      · exact ih (row + 1) best

/-- The same row leaves in the dual method. -/
@[gcongr]
theorem persists_leavingRow (B : Basis) : Persists Eq (leavingRow T B) (leavingRow U B) := by
  unfold leavingRow
  rw [h.constraints]
  gcongr

/-- The dual ratio test, by induction on the number of columns that are left. -/
@[gcongr]
theorem persists_dualRatioTest (row column count : ℕ) (best : Option (ℕ × Fraction)) :
    Persists Eq (dualRatioTest A T row column count best) (dualRatioTest A U row column count best) := by
  induction count generalizing column best with
  | zero => rfl
  | succ count ih =>
      unfold dualRatioTest
      gcongr with entry cost quotient ratio
      · exact ih (column + 1) (some (column, ratio))
      · exact ih (column + 1) best
      · exact ih (column + 1) best

/-- The same column enters in the dual method. -/
@[gcongr]
theorem persists_dualColumn (row : ℕ) : Persists Eq (dualColumn A T row) (dualColumn A U row) := by
  unfold dualColumn
  rw [h.columns]
  gcongr

/-- The dual rule makes the same choice. -/
theorem persists_dualRule (B : Basis) : Persists Eq (dualRule A T B) (dualRule A U B) := by
  unfold dualRule
  gcongr with row
  cases row with
  | none => rfl
  | some row =>
      dsimp only
      gcongr

/-- The primal method runs in the same way. -/
theorem persists_primalSimplex (budget : ℕ) (B : Basis) :
    Persists Run.PartOf (T.primalSimplex A budget B) (U.primalSimplex A budget B) :=
  persists_runStage persists_primalRule .primal h budget B

/-! ## Phase one -/

/-- The rows of the artificial program, by induction on their number. -/
@[gcongr]
theorem persists_artificialRows (row count : ℕ) :
    Persists Eq (artificialRows A T row count) (artificialRows A U row count) := by
  induction count generalizing row with
  | zero => rfl
  | succ count ih =>
      simp only [artificialRows, h.constraints]
      gcongr
      · exact ih (row + 1)
      · exact ih (row + 1)

/-- Both have the same artificial program: it has just the rows of the tableau. -/
theorem persists_artificialTableau :
    Persists Eq (artificialTableau A T) (artificialTableau A U) := by
  simp only [artificialTableau, h.constraints, h.columns, h.width]
  gcongr

/-- The pivots that price a basis out, by induction on the number of rows. -/
theorem persists_priceOut (column : ℕ → Calc ℕ) (row count : ℕ) :
    Persists PartOf (priceOut A column row count T) (priceOut A column row count U) := by
  induction count generalizing row T U with
  | zero => exact .pure h
  | succ count ih =>
      refine (Persists.refl _).bind_same fun entering => ?_
      exact (persists_pivot h entering row (.row 0)).bind fun T' U' h' => ih h' (row + 1)

/-- The copies of solved rows, by induction on the number of rows. -/
theorem persists_copyRows (source : Tableau) (row count : ℕ) :
    Persists PartOf (copyRows source row count T) (copyRows source row count U) := by
  induction count generalizing row T U with
  | zero => exact .pure h
  | succ count ih =>
      refine (Persists.refl _).bind_same fun entries => ?_
      rw [h.width]
      exact ih (h.setRow row _) (row + 1)

/-- Phase one comes to the same verdict and prepares the same program. -/
theorem persists_phaseOne (budget : ℕ) (B : Basis) :
    Persists Run.PartOf (T.phaseOne A budget B) (U.phaseOne A budget B) := by
  have hbasis : U.artificialBasis = T.artificialBasis := by
    rw [artificialBasis, artificialBasis, h.constraints, h.columns]
  unfold phaseOne
  rw [hbasis, h.constraints, h.columns]
  refine (persists_artificialTableau h).bind_same fun start => ?_
  refine (Persists.refl _).bind_same fun priced => ?_
  refine (Persists.refl _).bind_same fun run => ?_
  refine (Persists.refl _).bind_same fun residual => ?_
  dsimp only
  split
  · exact .pure ⟨rfl, h, rfl⟩
  · refine (Persists.refl _).bind_same fun ⟨state, dependent⟩ => ?_
    cases dependent with
    | some row => exact .pure ⟨rfl, h, rfl⟩
    | none =>
        refine (persists_copyRows h state.tableau 1 T.constraints).bind fun T' U' h' => ?_
        refine (persists_priceOut h' state.basis.inRow 1 T.constraints).bind fun T'' U'' h'' => ?_
        exact (persists_objectiveValue h'').bind_same fun z => .pure ⟨rfl, h'', rfl⟩

end Rules

end Tableau
end ExactSimplex
