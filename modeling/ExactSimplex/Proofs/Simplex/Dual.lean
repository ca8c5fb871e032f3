import ExactSimplex.Proofs.Simplex.Method
import ExactSimplex.Simplex.Dual

/-!
# The pivots of the dual simplex method

Of the rows with a negative right-hand side, the dual method takes the one of least basic variable, and
of the columns with a negative entry in it the first one of least ratio.  Such a pivot keeps the reduced
costs nonnegative.

Main results:

- Theorem {lit}`CanonicalState.dualRule_cases`: the rule asks for such a pivot or stops with a verdict
  that its state shows.
- Theorem {lit}`DualPivot.cost_nonneg`: the pivot keeps the reduced costs nonnegative.
- Definition {lit}`dualMethod`: the dual method as a pivoting method.
- Theorem {lit}`DualState.of_run`: a run of the method ends in a state that shows its verdict.
-/

namespace ExactSimplex

open Finset Fraction

/-! ## The rule -/

/-- The ratio of column `j` in the dual ratio test for row `t`. -/
def dualRatio (M : Values) (t j : ℕ) : ℚ := |M 0 j / M t j|

/-- The pivot of the dual method: among the rows of negative right-hand side the one of least basic
variable, and among the columns with a negative entry in it the first one of least ratio. -/
structure DualPivot (m n : ℕ) (M : Values) (β : ℕ → ℕ) (h t : ℕ) : Prop where
  row_pos : 1 ≤ t
  row_le : t ≤ m
  rhs : M t 0 < 0
  least : ∀ i, 1 ≤ i → i ≤ m → M i 0 < 0 → β t ≤ β i
  column_pos : 1 ≤ h
  column_le : h ≤ n
  entry : M t h < 0
  ratio_le : ∀ j, 1 ≤ j → j ≤ n → M t j < 0 → dualRatio M t h ≤ dualRatio M t j
  first : ∀ j, 1 ≤ j → j < h → M t j < 0 → dualRatio M t h < dualRatio M t j

namespace Tableau

variable {T : Tableau} {B : Basis} {m n : ℕ} {M : Values} {β : ℕ → ℕ}

/-- The search for the leaving row is a scan for the least basic variable. -/
theorem Represents.scans_leavingRowFrom (hT : T.Represents m n M) (hB : B.Represents m β) :
    Scans (T.leavingRowFrom B) (fun i => M i 0 < 0) β (fun i => (i, β i)) m where
  stop _ _ := rfl
  skip i count best hi hp := by
    simp [Tableau.leavingRowFrom, hT.rhs hi, hp, bind, Except.bind]
  first i count hi him hp := by
    simp [Tableau.leavingRowFrom, hT.rhs him, hB.inRow hi him, hp, bind, Except.bind]
  replace i count b hb hbi hi hp hlt := by
    simp [Tableau.leavingRowFrom, hT.rhs hi, hB.inRow (by omega : 1 ≤ i) hi, hp, hlt, bind,
      Except.bind]
  keep i count b hb hbi hi hp hlt := by
    simp [Tableau.leavingRowFrom, hT.rhs hi, hB.inRow (by omega : 1 ≤ i) hi, hp, hlt, bind,
      Except.bind]

/-- Of the rows with a negative right-hand side, the one with the least basic variable leaves. -/
theorem Represents.leavingRow (hT : T.Represents m n M) (hB : B.Represents m β) :
    ∃ best, T.leavingRow B = .ok best ∧ Least (fun i => M i 0 < 0) β (m + 1) best := by
  rcases (hT.scans_leavingRowFrom hB).finds with ⟨best, hbest, hleast⟩
  refine ⟨best, ?_, hleast⟩
  unfold Tableau.leavingRow
  rw [hT.constraints, hbest]
  cases best <;> rfl

/-- The dual ratio test is a scan for the least ratio. -/
theorem Represents.scans_dualRatioTest (hT : T.Represents m n M) {t : ℕ} (ht : t ≤ m) :
    Scans (dualRatioTest .exact T t) (fun j => M t j < 0) (dualRatio M t)
      (fun j => (j, ofRat (dualRatio M t j))) n where
  stop _ _ := rfl
  skip j count best hj hp := by
    simp [dualRatioTest, hT.get ht hj, hp, bind, Except.bind]
  first j count _ hj hp := by
    simp [dualRatioTest, entersBefore, dualRatio, hT.get ht hj, hT.reducedCost hj, div_ofRat,
      abs_ofRat, hp, bind, Except.bind, pure, Except.pure]
  replace j count b hb hbj hj hp hlt := by
    unfold dualRatio at hlt
    simp [dualRatioTest, entersBefore, dualRatio, hT.get ht hj, hT.reducedCost hj, div_ofRat,
      abs_ofRat, lt_ofRat, hp, hlt, bind, Except.bind]
  keep j count b hb hbj hj hp hlt := by
    unfold dualRatio at hlt
    simp [dualRatioTest, entersBefore, dualRatio, hT.get ht hj, hT.reducedCost hj, div_ofRat,
      abs_ofRat, lt_ofRat, hp, hlt, bind, Except.bind]

/-- The column of least ratio enters, the first one if there are several. -/
theorem Represents.dualColumn (hT : T.Represents m n M) {t : ℕ} (ht : t ≤ m) :
    ∃ best, dualColumn .exact T t = .ok best ∧
      Least (fun j => M t j < 0) (dualRatio M t) (n + 1) best := by
  rcases (hT.scans_dualRatioTest ht).finds with ⟨best, hbest, hleast⟩
  refine ⟨best, ?_, hleast⟩
  unfold Tableau.dualColumn
  rw [hT.columns, hbest]
  cases best <;> rfl

end Tableau

/-! ## States of the dual method -/

/-- A canonical state with nonnegative reduced costs. -/
structure DualState (m n : ℕ) (M : Values) (s : State) : Prop extends CanonicalState m n M s where
  cost_nonneg : ∀ j, 1 ≤ j → j ≤ n → 0 ≤ s.1.values 0 j

/-- The verdict of the dual method as its last state shows it: no right-hand side is negative, or a row
of negative right-hand side has no negative entry. -/
def DualVerdict (m n : ℕ) (M : Values) : SimplexStatus → Prop
  | .optimal => ∀ i, 1 ≤ i → i ≤ m → 0 ≤ M i 0
  | .unbounded => ∃ t, 1 ≤ t ∧ t ≤ m ∧ M t 0 < 0 ∧ ∀ j, 1 ≤ j → j ≤ n → 0 ≤ M t j

variable {m n : ℕ} {M : Values} {s s' : State}

/-- The rule stops with a verdict that its state shows or asks for a pivot. -/
theorem CanonicalState.dualRule_cases (hs : CanonicalState m n M s) :
    (∃ status, Tableau.dualRule .exact s.1 s.2 = .ok (.stop status) ∧
      DualVerdict m n s.1.values status) ∨
      ∃ h t, Tableau.dualRule .exact s.1 s.2 = .ok (.pivot h t) ∧
        DualPivot m n s.1.values s.2.basic h t := by
  rcases hs.tableau.leavingRow hs.basis with ⟨row, hrow, hleastRow⟩
  cases row with
  | none =>
      refine Or.inl ⟨.optimal, Tableau.dualRule_of_feasible .exact hrow, fun i hi him => ?_⟩
      exact not_lt.mp (hleastRow i hi (by omega))
  | some t =>
      rcases hleastRow with ⟨ht, htm, hrhs, hleastRow⟩
      rcases hs.tableau.dualColumn (by omega : t ≤ m) with ⟨column, hcolumn, hleast⟩
      cases column with
      | none =>
          refine Or.inl ⟨.unbounded, ?_, t, ht, by omega, hrhs, fun j hj hjn => ?_⟩
          · simp [Tableau.dualRule, hrow, hcolumn, bind, Except.bind, pure, Except.pure]
          · exact not_lt.mp (hleast j hj (by omega))
      | some h =>
          rcases hleast with ⟨hh, hhn, hentry, hleast⟩
          refine Or.inr ⟨h, t, ?_, ht, by omega, hrhs, fun i hi him hneg => ?_, hh, by omega, hentry,
            fun j hj hjn hneg => ?_, fun j hj hjh hneg => ?_⟩
          · simp [Tableau.dualRule, hrow, hcolumn, bind, Except.bind, pure, Except.pure]
          · exact (hleastRow i hi (by omega) hneg).1
          · exact (hleast j hj (by omega) hneg).1
          · exact (hleast j hj (by omega) hneg).2 hjh

namespace DualPivot

variable {β : ℕ → ℕ} {h t : ℕ}

/-- The objective row after the pivot. -/
theorem cost (hdual : DualPivot m n M β h t) (j : ℕ) :
    M.pivot h t .all 0 j = M 0 j - M 0 h * (M t j / M t h) := by
  have hne : 0 ≠ t := (Nat.lt_of_lt_of_le Nat.zero_lt_one hdual.row_pos).ne
  exact Values.pivot_of_ne M h j hne

/-- The least ratio keeps the reduced costs nonnegative. -/
theorem cost_nonneg (hdual : DualPivot m n M β h t) (hcosts : ∀ j, 1 ≤ j → j ≤ n → 0 ≤ M 0 j) {j : ℕ}
    (hj : 1 ≤ j) (hjn : j ≤ n) : 0 ≤ M.pivot h t .all 0 j := by
  have hh : 0 ≤ M 0 h := hcosts h hdual.column_pos hdual.column_le
  have hentry := hdual.entry
  rw [hdual.cost]
  rcases lt_or_ge (M t j) 0 with hneg | hpos
  · -- Both ratios are quotients of nonnegative by negative numbers.
    have hratio := hdual.ratio_le j hj hjn hneg
    unfold dualRatio at hratio
    rw [abs_of_nonpos (div_nonpos_of_nonneg_of_nonpos hh hentry.le),
      abs_of_nonpos (div_nonpos_of_nonneg_of_nonpos (hcosts j hj hjn) hneg.le)] at hratio
    have hbound := mul_le_mul_of_nonpos_right (neg_le_neg_iff.mp hratio) hneg.le
    rw [div_mul_cancel₀ _ hneg.ne] at hbound
    have hswap : M 0 h * (M t j / M t h) = M 0 h / M t h * M t j := by ring
    linarith
  · have hquotient := div_nonpos_of_nonneg_of_nonpos hpos hentry.le
    have := mul_nonpos_of_nonneg_of_nonpos hh hquotient
    have := hcosts j hj hjn
    linarith

end DualPivot

/-- The dual method on the canonical states of the program `M`. -/
def dualMethod (m n : ℕ) (M : Values) : PivotMethod m n M where
  rule := Tableau.dualRule .exact
  ready := DualState m n M
  verdict := DualVerdict m n
  chooses := DualPivot m n
  canonical hs := hs.toCanonicalState
  decides hs := hs.dualRule_cases
  column_pos hdual := hdual.column_pos
  column_le hdual := hdual.column_le
  row_pos hdual := hdual.row_pos
  row_le hdual := hdual.row_le
  entry_ne hdual := hdual.entry.ne
  not_basic hs hdual := hs.not_mem_of_entry_neg hdual.row_le hdual.entry
  keeps hs hdual hs' hex := ⟨hs', fun j hj hjn => by
    rw [hex.values]
    exact hdual.cost_nonneg hs.cost_nonneg hj hjn⟩

/-- A run of the dual method ends in a state that shows its verdict. -/
theorem DualState.of_run {T : Tableau} {B : Basis} (hs : DualState m n M (T, B))
    (hpos : BasicPos m (T, B)) {budget : ℕ} {run : Run SimplexStatus}
    (hrun : T.dualSimplex .exact budget B = .ok run) :
    DualState m n M (run.tableau, run.basis) ∧ BasicPos m (run.tableau, run.basis) ∧
      DualVerdict m n run.tableau.values run.result := by
  rcases (dualMethod m n M).verdict_of_run hs hrun with ⟨hlast, hverdict⟩
  exact ⟨hlast, (dualMethod m n M).basicPos_of_run hs hpos hrun, hverdict⟩

end ExactSimplex
