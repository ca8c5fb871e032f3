import ExactSimplex.Proofs.Simplex.CuttingPlane

/-!
# Runs from any canonical basis

The primal method is meant for feasible bases and the dual method for bases with nonnegative reduced
costs.  Neither looks at what it is given: from any canonical basis both pivot to canonical states of the
same program, and the last one shows the verdict.  Only the invariant that the method is meant to keep
may be missing, which for cutting planes the first cut brings back.

Main results:

- Theorems {lit}`CanonicalState.of_primal_run` and {lit}`CanonicalState.of_dual_run`: the end of a run.
- Theorem {lit}`CanonicalState.relaxAndCut`: the relaxed program and the cuts from any canonical basis.
-/

namespace ExactSimplex

variable {M₀ M : Values} {m₀ n₀ m n : ℕ} {T : Tableau} {B : Basis} {budget : ℕ}

/-! ## The methods without their invariants -/

/-- The primal method on all canonical states, with right-hand sides of any sign. -/
def primalMethodAnywhere (m n : ℕ) (M : Values) : PivotMethod m n M :=
  { primalMethod m n M with
    ready := CanonicalState m n M
    canonical := fun hs => hs
    decides := fun hs => hs.primalRule_cases
    not_basic := fun hs hbland hmem => hbland.cost.ne (hs.cost_eq_zero hmem)
    keeps := fun _ _ hs' _ => hs' }

/-- The dual method on all canonical states, with reduced costs of any sign. -/
def dualMethodAnywhere (m n : ℕ) (M : Values) : PivotMethod m n M :=
  { dualMethod m n M with
    ready := CanonicalState m n M
    canonical := fun hs => hs
    decides := fun hs => hs.dualRule_cases
    not_basic := fun hs hdual => hs.not_mem_of_entry_neg hdual.row_le hdual.entry
    keeps := fun _ _ hs' _ => hs' }

/-- A run of the primal method ends in a canonical state that shows its verdict. -/
theorem CanonicalState.of_primal_run (hs : CanonicalState m n M (T, B)) (hpos : BasicPos m (T, B))
    {run : Run SimplexStatus} (hrun : T.primalSimplex .exact budget B = .ok run) :
    CanonicalState m n M (run.tableau, run.basis) ∧ BasicPos m (run.tableau, run.basis) ∧
      PrimalVerdict m n run.tableau.values run.result := by
  rcases (primalMethodAnywhere m n M).verdict_of_run hs hrun with ⟨hlast, hverdict⟩
  exact ⟨hlast, (primalMethodAnywhere m n M).basicPos_of_run hs hpos hrun, hverdict⟩

/-- A run of the dual method ends in a canonical state that shows its verdict. -/
theorem CanonicalState.of_dual_run (hs : CanonicalState m n M (T, B)) (hpos : BasicPos m (T, B))
    {run : Run SimplexStatus} (hrun : T.dualSimplex .exact budget B = .ok run) :
    CanonicalState m n M (run.tableau, run.basis) ∧ BasicPos m (run.tableau, run.basis) ∧
      DualVerdict m n run.tableau.values run.result := by
  rcases (dualMethodAnywhere m n M).verdict_of_run hs hrun with ⟨hlast, hverdict⟩
  exact ⟨hlast, (dualMethodAnywhere m n M).basicPos_of_run hs hpos hrun, hverdict⟩

/-! ## Cuts -/

/-- An optimal answer of the rounds is their first state if no cut was needed, and a feasible state
otherwise. -/
theorem CutState.cutRounds {rounds round : ℕ} {run : Run IntegerStatus}
    (hs : CutState M₀ m₀ n₀ m n (T, B))
    (h : Tableau.cutRounds .exact budget rounds round T B = .ok run) (hresult : run.result = .optimal) :
    ∃ m' n', CutState M₀ m₀ n₀ m' n' (run.tableau, run.basis) ∧
      (m' = m ∨ ∀ i, 1 ≤ i → i ≤ m' → 0 ≤ run.tableau.values i 0) := by
  cases rounds with
  | zero => cases h
  | succ rounds =>
      rcases hs.cutRounds_succ h with ⟨rfl, -⟩ | ⟨hinfeasible, -⟩ |
        ⟨m', n', T', B', rest, events, hs', hrest, rfl⟩
      · exact ⟨m, n, hs, Or.inl rfl⟩
      · rw [hresult] at hinfeasible
        cases hinfeasible
      · have hanswer := hs'.cutRounds hrest
        have hrestResult : rest.result = .optimal := hresult
        rw [hrestResult] at hanswer
        rcases hanswer with ⟨m'', n'', hlast, -⟩
        exact ⟨m'', n'', hlast.cutState, Or.inr hlast.rhs_nonneg⟩

/-- An optimal answer of the primal method, whatever the signs of the right-hand sides, is ready for
cuts. -/
theorem CanonicalState.cutState_of_run (hs : CanonicalState m n M (T, B)) (hpos : BasicPos m (T, B))
    {run : Run SimplexStatus} (hrun : T.primalSimplex .exact budget B = .ok run)
    (hresult : run.result = .optimal) : CutState M m n m n (run.tableau, run.basis) := by
  rcases hs.of_primal_run hpos hrun with ⟨hlast, hlastPos, hverdict⟩
  rw [hresult] at hverdict
  exact ⟨⟨hlast.self, hverdict⟩, hlastPos, .of_equivalent hlast.equivalent⟩

/-- From any canonical state, an optimal answer of the relaxed program and the cuts is an optimal state
of the program itself in all but the signs of the right-hand sides, or a feasible one after a cut. -/
theorem CanonicalState.relaxAndCut {run : Run IntegerStatus} (hs : CanonicalState m n M (T, B))
    (hpos : BasicPos m (T, B)) (h : Tableau.relaxAndCut .exact budget T B = .ok run)
    (hresult : run.result = .optimal) :
    ∃ m' n', CutState M m n m' n' (run.tableau, run.basis) ∧
      (m' = m ∨ ∀ i, 1 ≤ i → i ≤ m' → 0 ≤ run.tableau.values i 0) := by
  rcases Tableau.relaxAndCut_cases h with ⟨inner, hinner, ⟨-, rfl⟩ | ⟨rest, hinnerResult, hrest, rfl⟩⟩
  · cases hresult
  · have hlast := (hs.cutState_of_run hpos hinner hinnerResult).cutRounds hrest hresult
    exact hlast

end ExactSimplex
