import ExactSimplex.Proofs.Simplex.Method
import ExactSimplex.Simplex.Primal
import Mathlib.Data.Prod.Lex

/-!
# The pivots of the primal simplex method

The rule of the primal method is Bland's rule, also in how it breaks ties.  A pivot that it asks for
keeps the right-hand sides nonnegative.

Main results:

- Theorem {lit}`CanonicalState.primalRule_cases`: the rule asks for Bland's pivot or stops with a
  verdict that its state shows.
- Theorem {lit}`BlandPivot.rhs_nonneg`: Bland's pivot keeps the right-hand sides nonnegative.
- Definition {lit}`primalMethod`: the primal method as a pivoting method.
- Theorem {lit}`PrimalState.of_run`: a run of the method ends in a state that shows its verdict.
-/

namespace ExactSimplex

open Finset Fraction

/-! ## Bland's rule -/

/-- The rank of row `i` in the ratio test for column `h`: its ratio, then its basic variable. -/
def ratioRank (M : Values) (β : ℕ → ℕ) (h i : ℕ) : ℚ ×ₗ ℕ :=
  toLex (M i 0 / M i h, β i)

/-- Bland's pivot: the first column of negative reduced cost, and among the rows with a positive entry
in it one of least ratio, of several the one of least basic variable. -/
structure BlandPivot (m n : ℕ) (M : Values) (β : ℕ → ℕ) (h t : ℕ) : Prop where
  column_pos : 1 ≤ h
  column_le : h ≤ n
  cost : M 0 h < 0
  first : ∀ j, 1 ≤ j → j < h → 0 ≤ M 0 j
  row_pos : 1 ≤ t
  row_le : t ≤ m
  entry : 0 < M t h
  least : ∀ i, 1 ≤ i → i ≤ m → 0 < M i h →
    M t 0 / M t h < M i 0 / M i h ∨ (M t 0 / M t h = M i 0 / M i h ∧ β t ≤ β i)

namespace Tableau

variable {T : Tableau} {B : Basis} {m n : ℕ} {M : Values} {β : ℕ → ℕ}

/-- The first column of negative reduced cost enters. -/
theorem Represents.enteringColumn_cases (hT : T.Represents m n M) :
    (T.enteringColumn = .ok none ∧ ∀ j, 1 ≤ j → j ≤ n → 0 ≤ M 0 j) ∨
      ∃ h, T.enteringColumn = .ok (some h) ∧ 1 ≤ h ∧ h ≤ n ∧ M 0 h < 0 ∧
        ∀ j, 1 ≤ j → j < h → 0 ≤ M 0 j := by
  have htest : ∀ j, 1 ≤ j → j < 1 + T.columns →
      (do let cost ← T.reducedCost j
          pure cost.isNegative : Calc Bool) = .ok (decide (M 0 j < 0)) := by
    intro j _ hj
    rw [hT.columns] at hj
    rw [hT.reducedCost (by omega)]
    simp [bind, Except.bind, pure, Except.pure]
  unfold enteringColumn
  rcases firstIndex_cases htest with ⟨hnone, hcosts⟩ | ⟨h, hsome, hh, hlt, hcost, hfirst⟩
  · refine Or.inl ⟨hnone, fun j hj hjn => ?_⟩
    simpa using hcosts j hj (by rw [hT.columns]; omega)
  · rw [hT.columns] at hlt
    refine Or.inr ⟨h, hsome, hh, by omega, by simpa using hcost, fun j hj hjh => ?_⟩
    simpa using hfirst j hj hjh

/-- Of two rows the one of lesser rank leaves. -/
theorem leavesBefore_some (hB : B.Represents m β) {h i best : ℕ} (hi : 1 ≤ i) (him : i ≤ m)
    (hbest : 1 ≤ best) (hbestm : best ≤ m) :
    leavesBefore .exact B i (ofRat (M i 0 / M i h)) (some (best, ofRat (M best 0 / M best h))) =
      .ok (decide (ratioRank M β h i < ratioRank M β h best)) := by
  have hiff : ratioRank M β h i < ratioRank M β h best ↔ M i 0 / M i h < M best 0 / M best h ∨
      (M i 0 / M i h = M best 0 / M best h ∧ β i < β best) :=
    Prod.Lex.toLex_lt_toLex
  unfold leavesBefore
  simp only [lt_ofRat, eq_ofRat, hB.inRow hi him, hB.inRow hbest hbestm, bind, Except.bind, pure,
    Except.pure]
  by_cases hlt : M i 0 / M i h < M best 0 / M best h
  · simp [hiff, hlt]
  · by_cases heq : M i 0 / M i h = M best 0 / M best h <;> simp [hiff, hlt, heq]

/-- The ratio test is a scan for the row of least rank. -/
theorem Represents.scans_ratioTest (hT : T.Represents m n M) (hB : B.Represents m β) {h : ℕ}
    (hh : h ≤ n) : Scans (ratioTest .exact T B h) (fun i => 0 < M i h) (ratioRank M β h)
      (fun i => (i, ofRat (M i 0 / M i h))) m where
  stop _ _ := rfl
  skip i count best hi hp := by
    simp [ratioTest, hT.get hi hh, hp, bind, Except.bind]
  first i count _ hi hp := by
    simp [ratioTest, leavesBefore, hT.get hi hh, hT.rhs hi, div_ofRat, hp, bind, Except.bind, pure,
      Except.pure]
  replace i count b hb hbi hi hp hlt := by
    have hbefore := leavesBefore_some (M := M) hB (h := h) (by omega : 1 ≤ i) hi hb (by omega : b ≤ m)
    simp [ratioTest, hT.get hi hh, hT.rhs hi, div_ofRat, hp, hbefore, hlt, bind, Except.bind]
  keep i count b hb hbi hi hp hlt := by
    have hbefore := leavesBefore_some (M := M) hB (h := h) (by omega : 1 ≤ i) hi hb (by omega : b ≤ m)
    simp [ratioTest, hT.get hi hh, hT.rhs hi, div_ofRat, hp, hbefore, hlt, bind, Except.bind]

/-- The row that leaves is the one of least rank. -/
theorem Represents.pivotRow (hT : T.Represents m n M) (hB : B.Represents m β) {h : ℕ}
    (hh : h ≤ n) : ∃ best, pivotRow .exact T B h = .ok best ∧
      Least (fun i => 0 < M i h) (ratioRank M β h) (m + 1) best := by
  rcases (hT.scans_ratioTest hB hh).finds with ⟨best, hbest, hleast⟩
  refine ⟨best, ?_, hleast⟩
  unfold Tableau.pivotRow
  rw [hT.constraints, hbest]
  cases best <;> rfl

end Tableau

/-! ## States of the primal method -/

/-- A canonical state with nonnegative right-hand sides. -/
structure PrimalState (m n : ℕ) (M : Values) (s : State) : Prop extends CanonicalState m n M s where
  rhs_nonneg : ∀ i, 1 ≤ i → i ≤ m → 0 ≤ s.1.values i 0

/-- The verdict of the primal method as its last state shows it: no reduced cost is negative, or a
column of negative reduced cost has no positive entry. -/
def PrimalVerdict (m n : ℕ) (M : Values) : SimplexStatus → Prop
  | .optimal => ∀ j, 1 ≤ j → j ≤ n → 0 ≤ M 0 j
  | .unbounded => ∃ h, 1 ≤ h ∧ h ≤ n ∧ M 0 h < 0 ∧ ∀ i, 1 ≤ i → i ≤ m → M i h ≤ 0

variable {m n : ℕ} {M : Values} {s s' : State}

/-- A state that shows an unbounded program has solutions of any low cost. -/
theorem PrimalState.unbounded (hs : PrimalState m n M s) (hpos : BasicPos m s)
    (hverdict : PrimalVerdict m n s.1.values .unbounded) (K : ℚ) :
    ∃ x, Nonneg n x ∧ M.Satisfies m n x ∧ M.cost n x < K := by
  rcases hverdict with ⟨h, hh, hhn, hcost, hcolumn⟩
  obtain ⟨x, hx, hsat, hlt⟩ :=
    hs.canonical.unbounded hpos hs.rhs_nonneg hh hhn hcost hcolumn K
  have hsat' := (hs.equivalent.satisfies_iff x).mpr hsat
  exact ⟨x, hx, hsat', by rwa [hs.equivalent.cost_eq hsat']⟩

/-- The rule stops with a verdict that its state shows or asks for Bland's pivot. -/
theorem CanonicalState.primalRule_cases (hs : CanonicalState m n M s) :
    (∃ status, Tableau.primalRule .exact s.1 s.2 = .ok (.stop status) ∧
      PrimalVerdict m n s.1.values status) ∨
      ∃ h t, Tableau.primalRule .exact s.1 s.2 = .ok (.pivot h t) ∧
        BlandPivot m n s.1.values s.2.basic h t := by
  rcases hs.tableau.enteringColumn_cases with ⟨hnone, hcosts⟩ | ⟨h, hsome, hh, hhn, hcost, hfirst⟩
  · exact Or.inl ⟨.optimal, Tableau.primalRule_of_optimal .exact s.2 hnone, hcosts⟩
  · rcases hs.tableau.pivotRow hs.basis hhn with ⟨best, hbest, hleast⟩
    cases best with
    | none =>
        refine Or.inl ⟨.unbounded, ?_, h, hh, hhn, hcost, fun i hi him => ?_⟩
        · simp [Tableau.primalRule, hsome, hbest, bind, Except.bind, pure, Except.pure]
        · exact not_lt.mp (hleast i hi (by omega))
    | some t =>
        rcases hleast with ⟨ht, htm, hentry, hleast⟩
        refine Or.inr ⟨h, t, ?_, hh, hhn, hcost, hfirst, ht, by omega, hentry, fun i hi him hpos => ?_⟩
        · simp [Tableau.primalRule, hsome, hbest, bind, Except.bind, pure, Except.pure]
        · exact Prod.Lex.toLex_le_toLex.mp (hleast i hi (by omega) hpos).1

namespace BlandPivot

variable {β : ℕ → ℕ} {h t : ℕ}

/-- No row has a lesser ratio than the row of the pivot. -/
theorem ratio_le (hbland : BlandPivot m n M β h t) {i : ℕ} (hi : 1 ≤ i) (him : i ≤ m)
    (hpos : 0 < M i h) : M t 0 / M t h ≤ M i 0 / M i h := by
  rcases hbland.least i hi him hpos with hlt | ⟨heq, -⟩
  · exact hlt.le
  · exact heq.le

/-- The least ratio keeps the right-hand sides nonnegative. -/
theorem rhs_nonneg (hbland : BlandPivot m n M β h t) (hrhs : ∀ i, 1 ≤ i → i ≤ m → 0 ≤ M i 0) {i : ℕ}
    (hi : 1 ≤ i) (him : i ≤ m) : 0 ≤ M.pivot h t .all i 0 := by
  have hratio : 0 ≤ M t 0 / M t h :=
    div_nonneg (hrhs t hbland.row_pos hbland.row_le) hbland.entry.le
  by_cases hit : i = t
  · rwa [hit, Values.pivot_self]
  · rw [Values.pivot_of_ne M h 0 hit]
    rcases lt_or_ge 0 (M i h) with hpos | hneg
    · have hbound := mul_le_mul_of_nonneg_left (hbland.ratio_le hi him hpos) hpos.le
      rw [mul_div_cancel₀ _ hpos.ne'] at hbound
      linarith
    · have := mul_nonpos_of_nonpos_of_nonneg hneg hratio
      have := hrhs i hi him
      linarith

end BlandPivot

/-- The primal method on the canonical states of the program `M`. -/
def primalMethod (m n : ℕ) (M : Values) : PivotMethod m n M where
  rule := Tableau.primalRule .exact
  ready := PrimalState m n M
  verdict := PrimalVerdict m n
  chooses := BlandPivot m n
  canonical hs := hs.toCanonicalState
  decides hs := hs.primalRule_cases
  column_pos hbland := hbland.column_pos
  column_le hbland := hbland.column_le
  row_pos hbland := hbland.row_pos
  row_le hbland := hbland.row_le
  entry_ne hbland := hbland.entry.ne'
  not_basic hs hbland hmem := hbland.cost.ne (hs.cost_eq_zero hmem)
  keeps hs hbland hs' hex := ⟨hs', fun i hi him => by
    rw [hex.values]
    exact hbland.rhs_nonneg hs.rhs_nonneg hi him⟩

/-- A run of the primal method ends in a state that shows its verdict. -/
theorem PrimalState.of_run {T : Tableau} {B : Basis} (hs : PrimalState m n M (T, B))
    (hpos : BasicPos m (T, B)) {budget : ℕ} {run : Run SimplexStatus}
    (hrun : T.primalSimplex .exact budget B = .ok run) :
    PrimalState m n M (run.tableau, run.basis) ∧ BasicPos m (run.tableau, run.basis) ∧
      PrimalVerdict m n run.tableau.values run.result := by
  rcases (primalMethod m n M).verdict_of_run hs hrun with ⟨hlast, hverdict⟩
  exact ⟨hlast, (primalMethod m n M).basicPos_of_run hs hpos hrun, hverdict⟩

end ExactSimplex
