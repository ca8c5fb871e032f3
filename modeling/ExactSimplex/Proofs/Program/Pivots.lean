import ExactSimplex.Proofs.Program.Solutions

/-!
# What a pivot does to a tableau

In exact arithmetic a pivot on a nonzero entry of a constraint row brings its column in and changes neither the
solutions nor their cost.  It leaves alone what has nothing to do with its row, and it is undone by a pivot on
the same row that brings a former unit vector back.

Main results:

- Theorem {lit}`Tableau.Represents.sameProgram_pivot`: a pivot keeps the program.
- Theorem {lit}`Tableau.WellFormed.pivot_both_modes`: what a pivot does to a tableau, for both of its modes.
-/

namespace ExactSimplex

open Fraction

namespace Tableau

variable {T U : Tableau} {m n h t : ℕ} {M N : Values} {e : Elimination}

/-! ## Entries and values -/

/-- A stored entry is the fraction of the number at its place. -/
theorem Represents.get_eq_ofRat_iff (hT : T.Represents m n M) {i j : ℕ} (hi : i ≤ m) (hj : j ≤ n) {q : ℚ} :
    T.get i j = .ok (ofRat q) ↔ M i j = q := by
  rw [hT.get hi hj, Except.ok.injEq, ofRat_inj]

/-- A stored unit vector is one of the numbers. -/
theorem Represents.get_eq_unit_iff (hT : T.Represents m n M) {i j : ℕ} (hi : i ≤ m) (hj : j ≤ n) {p : Prop}
    [Decidable p] :
    T.get i j = .ok (if p then Fraction.one else Fraction.zero) ↔ M i j = if p then 1 else 0 := by
  rw [one_eq_ofRat, zero_eq_ofRat, ← apply_ite ofRat, hT.get_eq_ofRat_iff hi hj]

/-- Equal numbers are stored as equal entries. -/
theorem Represents.get_eq_get (hT : T.Represents m n M) (hU : U.Represents m n N) {i j : ℕ} (hi : i ≤ m)
    (hj : j ≤ n) (h : M i j = N i j) : T.get i j = U.get i j := by
  rw [hT.get hi hj, hU.get hi hj, h]

/-! ## The program -/

/-- Two well formed tableaux of the same sizes have the same solutions at the same cost. -/
structure SameProgram (T U : Tableau) : Prop where
  wellFormed : U.WellFormed
  sizes : SameSizes T U
  satisfies_iff : ∀ x, T.Satisfies x ↔ U.Satisfies x
  cost_eq : ∀ x, T.Satisfies x → T.cost x = U.cost x

/-- Equivalent numbers make the same program. -/
theorem Represents.sameProgram (hT : T.Represents m n M) (hU : U.Represents m n N) (hsizes : SameSizes T U)
    (heq : Values.Equivalent m n M N) : SameProgram T U := by
  rcases hT with ⟨-, rfl, rfl, rfl⟩
  rcases hU with ⟨hwf, hconstraints, hcolumns, rfl⟩
  refine ⟨hwf, hsizes, fun x => ?_, fun x hx => ?_⟩
  · unfold Satisfies
    rw [hconstraints, hcolumns]
    exact heq.satisfies_iff x
  · unfold cost
    rw [hcolumns]
    exact heq.cost_eq hx

/-- A pivot on a nonzero entry of a constraint row keeps the program. -/
theorem Represents.sameProgram_pivot (hT : T.Represents m n M) (hU : U.Represents m n (M.pivot h t e))
    (hrun : T.pivot .exact h t e = .ok U) (ht : 1 ≤ t) (htm : t ≤ m) (hne : M t h ≠ 0) :
    SameProgram T U :=
  hT.sameProgram hU (pivot_sizes .exact hrun) (Values.equivalent_pivot ht htm hne e)

/-! ## The two modes -/

/-- Column `l` is the unit vector of row `t`, the objective row included. -/
def IsUnitOf (T : Tableau) (l t : ℕ) : Prop :=
  ∀ i ≤ T.constraints, T.get i l = .ok (if i = t then Fraction.one else Fraction.zero)

instance (T : Tableau) (l t : ℕ) : Decidable (T.IsUnitOf l t) :=
  inferInstanceAs (Decidable (∀ i ≤ T.constraints, _ = _))

/-- What a pivot on the entry of row `t` and column `h` that eliminates from all rows makes of a tableau. -/
structure PivotedAll (T U : Tableau) (h t : ℕ) : Prop extends SameProgram T U where
  column : U.IsUnitOf h t
  kept : ∀ j ≤ T.columns, T.get t j = .ok Fraction.zero → ∀ i ≤ T.constraints, U.get i j = T.get i j
  undone : ∀ l ≤ T.columns, T.IsUnitOf l t → U.pivot .exact l t .all = .ok T

/-- What a pivot on the entry of row `t` and column `h` that eliminates from row `r` makes of a tableau. -/
structure PivotedRow (T U : Tableau) (h t r : ℕ) : Prop extends SameProgram T U where
  eliminated : r ≠ t → U.get r h = .ok Fraction.zero
  kept : ∀ i ≤ T.constraints, i ≠ t → i ≠ r → U.row i = T.row i

/-- A column is stored as a unit vector exactly if its numbers are one. -/
theorem Represents.isUnit_iff (hT : T.Represents m n M) {l : ℕ} (hl : l ≤ n) :
    T.IsUnitOf l t ↔ ∀ i ≤ m, M i l = if i = t then 1 else 0 := by
  unfold IsUnitOf
  rw [hT.constraints]
  exact forall₂_congr fun i hi => hT.get_eq_unit_iff hi hl

/-- A second pivot on the row that brings a former unit vector of it back restores the tableau. -/
theorem Represents.pivot_undone (hT : T.Represents m n M) (hU : U.Represents m n (M.pivot h t .all))
    (htm : t ≤ m) (hne : M t h ≠ 0) {l : ℕ} (hl : l ≤ n) (hunit : T.IsUnitOf l t) :
    U.pivot .exact l t .all = .ok T := by
  rw [hT.isUnit_iff hl] at hunit
  have hone : M t l = 1 := by rw [hunit t htm, if_pos rfl]
  rcases hU.pivot hl htm .all (fun i hi => by cases hi) with ⟨V, hV, hVM⟩
  obtain rfl : V = T := hVM.eq hT fun i hi j _ => Values.pivot_pivot hne hone (hunit i hi) j
  exact hV

/-- A pivot on all numbers is a pivot on all stored rows. -/
theorem Represents.pivotedAll (hT : T.Represents m n M) (hU : U.Represents m n (M.pivot h t .all))
    (hprogram : SameProgram T U) (hhn : h ≤ n) (htm : t ≤ m) (hne : M t h ≠ 0) : PivotedAll T U h t where
  toSameProgram := hprogram
  column := (hU.isUnit_iff hhn).mpr fun i _ => Values.pivot_column hne i
  kept := by
    intro j hj hzero i hi
    rw [hT.columns] at hj
    rw [hT.constraints] at hi
    rw [zero_eq_ofRat, hT.get_eq_ofRat_iff htm hj] at hzero
    exact hU.get_eq_get hT hi hj (Values.pivot_of_zero hzero h i .all)
  undone := fun l hl hunit => hT.pivot_undone hU htm hne (hT.columns ▸ hl) hunit

/-- A pivot on the numbers of one row is a pivot on this stored row. -/
theorem Represents.pivotedRow {r : ℕ} (hT : T.Represents m n M) (hU : U.Represents m n (M.pivot h t (.row r)))
    (hprogram : SameProgram T U) (hhn : h ≤ n) (hrm : r ≤ m) (hne : M t h ≠ 0) :
    PivotedRow T U h t r where
  toSameProgram := hprogram
  eliminated := by
    intro hrt
    rw [zero_eq_ofRat, hU.get_eq_ofRat_iff hrm hhn, Values.pivot, if_neg hrt,
      if_pos (show (Elimination.row r).reaches r from rfl), div_self hne, mul_one, sub_self]
  kept := by
    intro i hi hit hir
    rw [hT.constraints] at hi
    have hrow : M.pivot h t (.row r) i = M i := by
      funext j
      rw [Values.pivot, if_neg hit, if_neg (show ¬(Elimination.row r).reaches i from hir)]
    rw [hU.row hi, hT.row hi, hrow]

/-- In exact arithmetic a pivot on a nonzero entry of a constraint row never fails and keeps the program.  If it
eliminates from all rows, its column becomes the unit vector of its row, every column that is zero in its row
stays, and a pivot on that row that brings a former unit vector back restores the tableau.  If it eliminates
from a single row, its column vanishes there, and all other rows but its own stay. -/
theorem WellFormed.pivot_both_modes (hT : T.WellFormed) (ht : 1 ≤ t) (htm : t ≤ T.constraints)
    (hhn : h ≤ T.columns) (hne : T.get t h ≠ .ok Fraction.zero) :
    (∃ U, T.pivot .exact h t .all = .ok U ∧ PivotedAll T U h t) ∧
      ∀ r ≤ T.constraints, ∃ U, T.pivot .exact h t (.row r) = .ok U ∧ PivotedRow T U h t r := by
  have hrep := hT.represents
  have hvalue : T.values t h ≠ 0 := by
    rwa [Ne, ← hrep.get_eq_ofRat_iff htm hhn, ← zero_eq_ofRat]
  constructor
  · rcases hrep.pivot hhn htm .all (fun i hi => by cases hi) with ⟨U, hrun, hU⟩
    have hprogram := hrep.sameProgram_pivot hU hrun ht htm hvalue
    exact ⟨U, hrun, hrep.pivotedAll hU hprogram hhn htm hvalue⟩
  · intro r hr
    rcases hrep.pivot hhn htm (.row r) (fun i hi => by cases hi; exact hr) with ⟨U, hrun, hU⟩
    have hprogram := hrep.sameProgram_pivot hU hrun ht htm hvalue
    exact ⟨U, hrun, hrep.pivotedRow hU hprogram hhn hr hvalue⟩

/-- A program whose last two columns are the unit vectors of its rows. -/
def slacks : Tableau where
  columns := 5
  constraints := 2
  entries := #[⟨0, 1⟩, ⟨3, 1⟩, ⟨4, 1⟩, ⟨5, 1⟩, ⟨0, 1⟩, ⟨0, 1⟩,
    ⟨-6, 1⟩, ⟨-2, 1⟩, ⟨-2, 1⟩, ⟨-1, 1⟩, ⟨1, 1⟩, ⟨0, 1⟩,
    ⟨-5, 1⟩, ⟨-1, 1⟩, ⟨-2, 1⟩, ⟨-3, 1⟩, ⟨0, 1⟩, ⟨1, 1⟩]

/-- The first variable goes into the first row and out again, past the slack of the other row; a pivot for the
objective row alone leaves the second row alone. -/
theorem pivot_both_modes_slacks :
    (∃ U, slacks.pivot .exact 1 1 .all = .ok U ∧ U.IsUnitOf 1 1 ∧ U.get 0 5 = slacks.get 0 5 ∧
      (∀ x, slacks.Satisfies x ↔ U.Satisfies x) ∧ U.pivot .exact 4 1 .all = .ok slacks) ∧
    ∃ U, slacks.pivot .exact 1 1 (.row 0) = .ok U ∧ U.get 0 1 = .ok Fraction.zero ∧
      U.row 2 = slacks.row 2 := by
  have hslacks : slacks.WellFormed := by decide
  rcases hslacks.pivot_both_modes (t := 1) (h := 1) (by decide) (by decide) (by decide) (by decide) with
    ⟨⟨U, hU, hall⟩, hsingle⟩
  rcases hsingle 0 (by decide) with ⟨V, hV, hrow⟩
  refine ⟨⟨U, hU, hall.column, ?_, hall.satisfies_iff, ?_⟩, V, hV, hrow.eliminated (by decide), ?_⟩
  · exact hall.kept 5 (by decide) (by decide) 0 (by decide)
  · exact hall.undone 4 (by decide) (by decide)
  · exact hrow.kept 2 (by decide) (by decide) (by decide)

end Tableau
end ExactSimplex
