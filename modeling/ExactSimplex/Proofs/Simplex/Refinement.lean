import ExactSimplex.Proofs.Tableau.Refinement
import ExactSimplex.Simplex.CuttingPlane

/-!
# Stages where no result is refused

A stage decides what it does next by signs, comparisons and tests on stored fractions.  These come out the
same in every arithmetic that stores the same integers, so a whole stage makes the same pivots, reports
the same events and ends in the same state, by induction on its budget.

Main results:

- Theorem {lit}`refines_runStage`: a run of rules that agree.
- Theorems {lit}`Tableau.refines_primalRule` and {lit}`Tableau.refines_dualRule`: the choices of the two
  methods.
- Theorems {lit}`Tableau.refines_phaseOne` and {lit}`Tableau.refines_cuttingPlane`: the stages made of
  them.
-/

namespace ExactSimplex

open Calc

variable {A A' : Arithmetic}

/-! ## Runs -/

/-- A pivot of a run in two arithmetics. -/
@[gcongr]
theorem refines_takePivot (hA : A.Refines A') (T : Tableau) (B : Basis) (column row : ℕ) :
    Refines (takePivot A T B column row) (takePivot A' T B column row) := by
  unfold takePivot
  gcongr

/-- A run of a rule, by induction on the budget: the rules choose the same pivot, it leads to the same
state, and the rest of the run starts from there. -/
theorem refines_runRule (hA : A.Refines A') (stage : Stage) {rule rule' : Rule}
    (hrule : ∀ T B, Refines (rule T B) (rule' T B)) (budget index : ℕ) (T : Tableau) (B : Basis) :
    Refines (runRule A stage rule budget index T B) (runRule A' stage rule' budget index T B) := by
  induction budget generalizing index T B with
  | zero => rfl
  | succ budget ih =>
      refine (hrule T B).bind fun choice => ?_
      cases choice with
      | stop status => rfl
      | pivot column row =>
          refine (refines_takePivot hA T B column row).bind fun ⟨T', B', leaving, element⟩ => ?_
          exact (ih (index + 1) T' B').bind fun rest => .refl _

/-- A stage in two arithmetics, where its rules choose the same pivots. -/
theorem refines_runStage (hA : A.Refines A') (stage : Stage) {rule rule' : Rule}
    (hrule : ∀ T B, Refines (rule T B) (rule' T B)) (budget : ℕ) (T : Tableau) (B : Basis) :
    Refines (runStage A stage rule budget T B) (runStage A' stage rule' budget T B) := by
  refine (refines_runRule hA stage hrule budget 0 T B).bind fun run => ?_
  cases run.result with
  | optimal =>
      dsimp only
      gcongr
  | unbounded => rfl

namespace Tableau

/-! ## The primal method -/

/-- The comparison of two rows in two arithmetics. -/
@[gcongr]
theorem refines_leavesBefore (hA : A.Refines A') (B : Basis) (row : ℕ) (ratio : Fraction)
    (best : Option (ℕ × Fraction)) :
    Refines (leavesBefore A B row ratio best) (leavesBefore A' B row ratio best) := by
  rcases best with _ | ⟨least, bound⟩
  · rfl
  · simp only [leavesBefore]
    gcongr

/-- The ratio test, by induction on the number of rows that are left. -/
@[gcongr]
theorem refines_ratioTest (hA : A.Refines A') (T : Tableau) (B : Basis) (column row count : ℕ)
    (best : Option (ℕ × Fraction)) :
    Refines (ratioTest A T B column row count best) (ratioTest A' T B column row count best) := by
  induction count generalizing row best with
  | zero => rfl
  | succ count ih =>
      unfold ratioTest
      gcongr with entry bound ratio
      · exact ih (row + 1) (some (row, ratio))
      · exact ih (row + 1) best
      · exact ih (row + 1) best

/-- The row that leaves in two arithmetics. -/
@[gcongr]
theorem refines_pivotRow (hA : A.Refines A') (T : Tableau) (B : Basis) (column : ℕ) :
    Refines (pivotRow A T B column) (pivotRow A' T B column) := by
  unfold pivotRow
  gcongr

/-- The primal rule in two arithmetics. -/
theorem refines_primalRule (hA : A.Refines A') (T : Tableau) (B : Basis) :
    Refines (primalRule A T B) (primalRule A' T B) := by
  unfold primalRule
  gcongr with column
  cases column with
  | none => rfl
  | some column =>
      dsimp only
      gcongr

/-- The primal method in two arithmetics. -/
@[gcongr]
theorem refines_primalSimplex (hA : A.Refines A') (budget : ℕ) (T : Tableau) (B : Basis) :
    Refines (T.primalSimplex A budget B) (T.primalSimplex A' budget B) :=
  refines_runStage hA .primal (refines_primalRule hA) budget T B

/-! ## The dual method -/

/-- The comparison of two columns in two arithmetics. -/
@[gcongr]
theorem refines_entersBefore (hA : A.Refines A') (ratio : Fraction)
    (best : Option (ℕ × Fraction)) :
    Refines (entersBefore A ratio best) (entersBefore A' ratio best) := by
  cases best with
  | none => rfl
  | some best => exact Fraction.refines_lt hA ratio best.2

/-- The dual ratio test, by induction on the number of columns that are left. -/
@[gcongr]
theorem refines_dualRatioTest (hA : A.Refines A') (T : Tableau) (row column count : ℕ)
    (best : Option (ℕ × Fraction)) :
    Refines (dualRatioTest A T row column count best) (dualRatioTest A' T row column count best) := by
  induction count generalizing column best with
  | zero => rfl
  | succ count ih =>
      unfold dualRatioTest
      gcongr with entry cost quotient ratio
      · exact ih (column + 1) (some (column, ratio))
      · exact ih (column + 1) best
      · exact ih (column + 1) best

/-- The column that enters in two arithmetics. -/
@[gcongr]
theorem refines_dualColumn (hA : A.Refines A') (T : Tableau) (row : ℕ) :
    Refines (dualColumn A T row) (dualColumn A' T row) := by
  unfold dualColumn
  gcongr

/-- The dual rule in two arithmetics. -/
theorem refines_dualRule (hA : A.Refines A') (T : Tableau) (B : Basis) :
    Refines (dualRule A T B) (dualRule A' T B) := by
  unfold dualRule
  gcongr with row
  cases row with
  | none => rfl
  | some row =>
      dsimp only
      gcongr

/-- The dual method in two arithmetics. -/
@[gcongr]
theorem refines_dualSimplex (hA : A.Refines A') (budget : ℕ) (T : Tableau) (B : Basis) :
    Refines (T.dualSimplex A budget B) (T.dualSimplex A' budget B) :=
  refines_runStage hA .dual (refines_dualRule hA) budget T B

/-! ## Phase one -/

/-- The rows of the artificial program, by induction on their number. -/
@[gcongr]
theorem refines_artificialRows (hA : A.Refines A') (T : Tableau) (row count : ℕ) :
    Refines (artificialRows A T row count) (artificialRows A' T row count) := by
  induction count generalizing row with
  | zero => rfl
  | succ count ih =>
      simp only [artificialRows]
      gcongr
      · exact ih (row + 1)
      · exact ih (row + 1)

/-- The artificial program in two arithmetics. -/
@[gcongr]
theorem refines_artificialTableau (hA : A.Refines A') (T : Tableau) :
    Refines (artificialTableau A T) (artificialTableau A' T) := by
  simp only [artificialTableau]
  gcongr

/-- The pivots that price a basis out, by induction on the number of rows. -/
@[gcongr]
theorem refines_priceOut (hA : A.Refines A') (column : ℕ → Calc ℕ) (row count : ℕ) (T : Tableau) :
    Refines (priceOut A column row count T) (priceOut A' column row count T) := by
  induction count generalizing row T with
  | zero => rfl
  | succ count ih =>
      unfold priceOut
      gcongr with h U
      exact ih (row + 1) U

/-- The exchanges that drive artificial variables out, by induction on the number of rows. -/
@[gcongr]
theorem refines_driveOut (hA : A.Refines A') (columns row count : ℕ) (state : Drive) :
    Refines (driveOut A columns row count state) (driveOut A' columns row count state) := by
  induction count generalizing row state with
  | zero => rfl
  | succ count ih =>
      unfold driveOut
      gcongr with basic nonzero
      · exact ih (row + 1) state
      · cases nonzero with
        | none => rfl
        | some entering =>
            dsimp only
            gcongr with U C
            exact ih (row + 1) _

/-- Phase one in two arithmetics. -/
@[gcongr]
theorem refines_phaseOne (hA : A.Refines A') (budget : ℕ) (T : Tableau) (B : Basis) :
    Refines (T.phaseOne A budget B) (T.phaseOne A' budget B) := by
  simp only [phaseOne]
  gcongr with start priced run residual driven
  cases driven.2 with
  | some row => rfl
  | none =>
      dsimp only
      gcongr

/-! ## Cutting planes -/

/-- The rounds of cuts, by induction on the number of rounds allowed. -/
@[gcongr]
theorem refines_cutRounds (hA : A.Refines A') (budget rounds round : ℕ) (T : Tableau) (B : Basis) :
    Refines (cutRounds A budget rounds round T B) (cutRounds A' budget rounds round T B) := by
  induction rounds generalizing round T B with
  | zero => rfl
  | succ rounds ih =>
      refine Refines.bind (.refl _) fun found => ?_
      cases found with
      | none => rfl
      | some source =>
          refine (refines_addCut hA T B source).bind fun ⟨T', B'⟩ => ?_
          refine (refines_dualSimplex hA budget T' B').bind fun run => ?_
          cases run.result with
          | unbounded => rfl
          | optimal => exact (ih (round + 1) run.tableau run.basis).bind fun rest => .refl _

/-- The relaxed program and its rounds in two arithmetics. -/
@[gcongr]
theorem refines_relaxAndCut (hA : A.Refines A') (budget : ℕ) (T : Tableau) (B : Basis) :
    Refines (relaxAndCut A budget T B) (relaxAndCut A' budget T B) := by
  refine (refines_primalSimplex hA budget T B).bind fun run => ?_
  cases run.result with
  | unbounded => rfl
  | optimal =>
      dsimp only
      gcongr

/-- Cutting planes from the search for a start on in two arithmetics. -/
@[gcongr]
theorem refines_cutFromStart (hA : A.Refines A') (budget : ℕ) (T : Tableau) (B : Basis) :
    Refines (cutFromStart A budget T B) (cutFromStart A' budget T B) := by
  refine (refines_startingBasis hA T).bind fun found => ?_
  cases found with
  | some found =>
      dsimp only
      gcongr
  | none =>
      refine (refines_phaseOne hA budget T B).bind fun first => ?_
      rcases first.result with e | (_ | _)
      · rfl
      · dsimp only
        gcongr
      · rfl

/-- Cutting planes in two arithmetics. -/
@[gcongr]
theorem refines_cuttingPlane (hA : A.Refines A') (budget : ℕ) (T : Tableau) (B : Basis) :
    Refines (T.cuttingPlane A budget B) (T.cuttingPlane A' budget B) := by
  refine (refines_cutFromStart hA budget T B).bind fun run => ?_
  rcases run.result with e | status
  · rfl
  · cases status with
    | optimal =>
        dsimp only
        gcongr
    | unbounded => rfl
    | infeasible => rfl

end Tableau
end ExactSimplex
