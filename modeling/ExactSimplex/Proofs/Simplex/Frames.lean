import ExactSimplex.Proofs.Calc
import ExactSimplex.Simplex.CuttingPlane

/-!
# The frames and the parts of stages

A stage is a calculation in a frame of two events, of which the second reports how the stage ended.  The frame
touches neither the answer nor the state.  Phase one and cutting planes are put together from stages, and what
each of their parts can do is said here once.

Main results:

- Theorem {lit}`Reports.unique`: a tableau has one objective value to report.
- Theorem {lit}`runStage_frame`: the frame of the primal and of the dual method.
- Theorems {lit}`Tableau.driveOut_cases` and {lit}`Tableau.phaseOne_parts`: the artificial program and what
  phase one makes of it.
- Theorems {lit}`Tableau.cutRounds_cases`, {lit}`Tableau.relaxAndCut_cases` and
  {lit}`Tableau.cutFromStart_cases`: the parts of cutting planes.
- Theorem {lit}`Tableau.cuttingPlane_frame`: the frame of cutting planes, which an error leaves open.
-/

namespace ExactSimplex

open Calc

variable {A : Arithmetic} {stage : Stage} {rule : Rule} {budget : ℕ} {T U : Tableau} {B : Basis}

/-- What a stage reports at its end: the objective value of its last tableau if there is an optimum or a
feasible basis to show, and nothing otherwise. -/
def Reports (A : Arithmetic) (U : Tableau) (shown : Prop) : Option Fraction → Prop
  | some z => shown ∧ U.objectiveValue A = .ok z
  | none => ¬shown

/-- There is only one objective value to report. -/
theorem Reports.unique {shown : Prop} {z z' : Option Fraction} (h : Reports A U shown z)
    (h' : Reports A U shown z') : z = z' := by
  cases z with
  | none =>
      cases z' with
      | none => rfl
      | some _ => exact absurd h'.1 h
  | some _ =>
      cases z' with
      | none => exact absurd h.1 h'
      | some _ => rw [Except.ok.inj (h.2.symm.trans h'.2)]

/-- A stage is a run in a frame that reports an optimum. -/
theorem runStage_frame {run : Run SimplexStatus} (h : runStage A stage rule budget T B = .ok run) :
    ∃ inner objective, runRule A stage rule budget 0 T B = .ok inner ∧
      Reports A inner.tableau (inner.result = .optimal) objective ∧
      run = { inner with
        events := .started stage :: inner.events ++
          [.finished stage inner.result.outcome objective] } := by
  rcases bind_eq_ok.mp h with ⟨inner, hinner, h⟩
  cases hresult : inner.result with
  | optimal =>
      rw [hresult] at h
      rcases bind_eq_ok.mp h with ⟨objective, hobjective, h⟩
      rcases map_eq_ok.mp hobjective with ⟨z, hz, rfl⟩
      exact ⟨inner, some z, hinner, ⟨hresult, hz⟩, by rw [← pure_eq_ok.mp h, hresult]⟩
  | unbounded =>
      rw [hresult] at h
      rcases bind_eq_ok.mp h with ⟨objective, hobjective, h⟩
      cases pure_eq_ok.mp hobjective
      exact ⟨inner, none, hinner, by simp [Reports, hresult], by rw [← pure_eq_ok.mp h, hresult]⟩

namespace Tableau

/-! ## Phase one -/

/-- Driving out passes over a row with a variable of the program, ends at a row that allows no swap, or swaps
the artificial variable of the row. -/
theorem driveOut_cases {columns row count : ℕ} {d d' : Drive} {dependent : Option ℕ}
    (h : driveOut A columns row (count + 1) d = .ok (d', dependent)) :
    driveOut A columns (row + 1) count d = .ok (d', dependent) ∨ (d' = d ∧ dependent = some row) ∨
      ∃ basic entered V C, d.tableau.pivot A entered row .all = .ok V ∧
        d.basis.enter row entered = .ok C ∧
        driveOut A columns (row + 1) count ⟨V, C, d.events ++ [.degeneracy row basic entered]⟩ =
          .ok (d', dependent) := by
  rcases bind_eq_ok.mp h with ⟨basic, -, h⟩
  split at h
  · exact Or.inl h
  · rcases bind_eq_ok.mp h with ⟨found, -, h⟩
    cases found with
    | none =>
        cases pure_eq_ok.mp h
        exact Or.inr (Or.inl ⟨rfl, rfl⟩)
    | some entered =>
        rcases bind_eq_ok.mp h with ⟨V, hV, h⟩
        rcases bind_eq_ok.mp h with ⟨C, hC, h⟩
        exact Or.inr (Or.inr ⟨basic, entered, V, C, hV, hC, h⟩)

/-- How phase one ends after a run on the artificial program whose objective value is `residual`. -/
inductive PhaseOneEnd (A : Arithmetic) (T : Tableau) (B : Basis) (inner : Run SimplexStatus)
    (residual : Fraction) : Run (Except SolveError Feasibility) → Prop
  | infeasible : inner.result = .unbounded ∨ residual.isZero = false →
      PhaseOneEnd A T B inner residual ⟨.ok .infeasible, T, B,
        .started .phaseOne :: inner.events ++ [.finished .phaseOne .infeasible none]⟩
  | dependent {d : Drive} {row : ℕ} : inner.result = .optimal → residual.isZero = true →
      driveOut A T.columns 1 T.constraints
        ⟨inner.tableau, inner.basis, .started .phaseOne :: inner.events⟩ = .ok (d, some row) →
      PhaseOneEnd A T B inner residual ⟨.error (.notFullRank row), T, B, d.events⟩
  | feasible {d : Drive} {copied solved : Tableau} {objective : Fraction} :
      inner.result = .optimal → residual.isZero = true →
      driveOut A T.columns 1 T.constraints
        ⟨inner.tableau, inner.basis, .started .phaseOne :: inner.events⟩ = .ok (d, none) →
      copyRows d.tableau 1 T.constraints T = .ok copied →
      priceOut A d.basis.inRow 1 T.constraints copied = .ok solved →
      solved.objectiveValue A = .ok objective →
      PhaseOneEnd A T B inner residual ⟨.ok .feasible, solved, d.basis,
        d.events ++ [.finished .phaseOne .feasible (some objective)]⟩

/-- Phase one sets up the artificial program, prices out its basis, runs the primal method on it, and ends
in one of three ways. -/
theorem phaseOne_parts {run : Run (Except SolveError Feasibility)}
    (h : phaseOne A budget T B = .ok run) :
    ∃ start priced inner residual, artificialTableau A T = .ok start ∧
      priceOut A (fun row => pure (T.columns + row)) 1 T.constraints start = .ok priced ∧
      primalSimplex A budget priced T.artificialBasis = .ok inner ∧
      inner.tableau.objectiveValue A = .ok residual ∧ PhaseOneEnd A T B inner residual run := by
  rcases bind_eq_ok.mp h with ⟨start, hstart, h⟩
  rcases bind_eq_ok.mp h with ⟨priced, hpriced, h⟩
  rcases bind_eq_ok.mp h with ⟨inner, hinner, h⟩
  rcases bind_eq_ok.mp h with ⟨residual, hresidual, h⟩
  refine ⟨start, priced, inner, residual, hstart, hpriced, hinner, hresidual, ?_⟩
  split at h
  · next hinfeasible =>
      cases pure_eq_ok.mp h
      exact .infeasible hinfeasible
  · next hfeasible =>
      rw [not_or, Bool.not_eq_false] at hfeasible
      have hoptimal : inner.result = .optimal := by
        cases hresult : inner.result with
        | optimal => rfl
        | unbounded => exact absurd hresult hfeasible.1
      rcases bind_eq_ok.mp h with ⟨⟨d, dependent⟩, hdrive, h⟩
      cases dependent with
      | some row =>
          cases pure_eq_ok.mp h
          exact .dependent hoptimal hfeasible.2 hdrive
      | none =>
          rcases bind_eq_ok.mp h with ⟨copied, hcopied, h⟩
          rcases bind_eq_ok.mp h with ⟨solved, hsolved, h⟩
          rcases bind_eq_ok.mp h with ⟨objective, hobjective, h⟩
          cases pure_eq_ok.mp h
          exact .feasible hoptimal hfeasible.2 hdrive hcopied hsolved hobjective

/-! ## Cutting planes -/

/-- A round of cuts finds no fractional row and stops, or it adds a cut and runs the dual method, which shows
that there is no integer point or leads to the next round. -/
theorem cutRounds_cases {rounds round : ℕ} {run : Run IntegerStatus}
    (h : cutRounds A budget (rounds + 1) round T B = .ok run) :
    (T.fractionalRow = .ok none ∧ run = ⟨.optimal, T, B, []⟩) ∨
      ∃ source s inner, T.fractionalRow = .ok (some source) ∧ addCut A T B source = .ok s ∧
        dualSimplex A budget s.1 s.2 = .ok inner ∧
        ((inner.result = .unbounded ∧ run = ⟨.infeasible, inner.tableau, inner.basis,
            .cut (round + 1) source :: inner.events⟩) ∨
          ∃ rest, inner.result = .optimal ∧
            cutRounds A budget rounds (round + 1) inner.tableau inner.basis = .ok rest ∧
            run = rest.after (.cut (round + 1) source :: inner.events)) := by
  rcases bind_eq_ok.mp h with ⟨found, hfound, h⟩
  cases found with
  | none => exact Or.inl ⟨hfound, (pure_eq_ok.mp h).symm⟩
  | some source =>
      rcases bind_eq_ok.mp h with ⟨s, hcut, h⟩
      rcases bind_eq_ok.mp h with ⟨inner, hinner, h⟩
      refine Or.inr ⟨source, s, inner, hfound, hcut, hinner, ?_⟩
      cases hresult : inner.result with
      | unbounded =>
          rw [hresult] at h
          exact Or.inl ⟨rfl, (pure_eq_ok.mp h).symm⟩
      | optimal =>
          rw [hresult] at h
          rcases bind_eq_ok.mp h with ⟨rest, hrest, h⟩
          exact Or.inr ⟨rest, rfl, hrest, (pure_eq_ok.mp h).symm⟩

/-- The relaxed program is unbounded, or its optimum is the start of the rounds. -/
theorem relaxAndCut_cases {run : Run IntegerStatus} (h : relaxAndCut A budget T B = .ok run) :
    ∃ inner, primalSimplex A budget T B = .ok inner ∧
      ((inner.result = .unbounded ∧ run = { inner with result := .unbounded }) ∨
        ∃ rest, inner.result = .optimal ∧
          cutRounds A budget budget 0 inner.tableau inner.basis = .ok rest ∧
          run = rest.after inner.events) := by
  rcases bind_eq_ok.mp h with ⟨inner, hinner, h⟩
  refine ⟨inner, hinner, ?_⟩
  cases hresult : inner.result with
  | unbounded =>
      rw [hresult] at h
      exact Or.inl ⟨rfl, (pure_eq_ok.mp h).symm⟩
  | optimal =>
      rw [hresult] at h
      rcases bind_eq_ok.mp h with ⟨rest, hrest, h⟩
      exact Or.inr ⟨rest, rfl, hrest, (pure_eq_ok.mp h).symm⟩

/-- The relaxed program and the cuts start from a basis that is found in the tableau, or from phase one; if
phase one finds no feasible basis, they are not reached. -/
theorem cutFromStart_cases {run : Run (Except SolveError IntegerStatus)}
    (h : cutFromStart A budget T B = .ok run) :
    (∃ found inner, startingBasis A T = .ok (some found) ∧ relaxAndCut A budget T found = .ok inner ∧
        run = { inner with result := .ok inner.result }) ∨
      ∃ first, startingBasis A T = .ok none ∧ phaseOne A budget T B = .ok first ∧
        ((∃ e, first.result = .error e ∧ run = { first with result := .error e }) ∨
          (first.result = .ok .infeasible ∧ run = { first with result := .ok .infeasible }) ∨
          ∃ inner, first.result = .ok .feasible ∧
            relaxAndCut A budget first.tableau first.basis = .ok inner ∧
            run = Run.after first.events { inner with result := Except.ok inner.result }) := by
  rcases bind_eq_ok.mp h with ⟨found, hfound, h⟩
  cases found with
  | some found =>
      rcases bind_eq_ok.mp h with ⟨inner, hinner, h⟩
      exact Or.inl ⟨found, inner, hfound, hinner, (pure_eq_ok.mp h).symm⟩
  | none =>
      rcases bind_eq_ok.mp h with ⟨first, hfirst, h⟩
      refine Or.inr ⟨first, hfound, hfirst, ?_⟩
      rcases hresult : first.result with e | (_ | _) <;> rw [hresult] at h
      · exact Or.inl ⟨e, rfl, (pure_eq_ok.mp h).symm⟩
      · rcases bind_eq_ok.mp h with ⟨inner, hinner, h⟩
        exact Or.inr (Or.inr ⟨inner, rfl, hinner, (pure_eq_ok.mp h).symm⟩)
      · exact Or.inr (Or.inl ⟨rfl, (pure_eq_ok.mp h).symm⟩)

/-- Cutting planes are a calculation from a start in a frame that reports an optimum; an error leaves the
frame open. -/
theorem cuttingPlane_frame {run : Run (Except SolveError IntegerStatus)}
    (h : cuttingPlane A budget T B = .ok run) :
    ∃ inner, cutFromStart A budget T B = .ok inner ∧
      ((∃ e, inner.result = .error e ∧
        run = { inner with
          events := .started .cuttingPlane :: inner.events }) ∨
      ∃ status objective, inner.result = .ok status ∧
        Reports A inner.tableau (status = .optimal) objective ∧
        run = { inner with
          events := .started .cuttingPlane :: inner.events ++
            [.finished .cuttingPlane status.outcome objective] }) := by
  rcases bind_eq_ok.mp h with ⟨inner, hinner, h⟩
  refine ⟨inner, hinner, ?_⟩
  rcases hresult : inner.result with e | status
  · rw [hresult] at h
    exact Or.inl ⟨e, rfl, (pure_eq_ok.mp h).symm⟩
  · rw [hresult] at h
    right
    cases status with
    | optimal =>
        rcases bind_eq_ok.mp h with ⟨objective, hobjective, h⟩
        rcases map_eq_ok.mp hobjective with ⟨z, hz, rfl⟩
        exact ⟨.optimal, some z, rfl, ⟨rfl, hz⟩, (pure_eq_ok.mp h).symm⟩
    | unbounded =>
        rcases bind_eq_ok.mp h with ⟨objective, hobjective, h⟩
        cases pure_eq_ok.mp hobjective
        exact ⟨.unbounded, none, rfl, nofun, (pure_eq_ok.mp h).symm⟩
    | infeasible =>
        rcases bind_eq_ok.mp h with ⟨objective, hobjective, h⟩
        cases pure_eq_ok.mp hobjective
        exact ⟨.infeasible, none, rfl, nofun, (pure_eq_ok.mp h).symm⟩

end Tableau
end ExactSimplex
