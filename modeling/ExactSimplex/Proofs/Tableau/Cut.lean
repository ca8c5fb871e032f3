import ExactSimplex.Proofs.Tableau.Canonical
import ExactSimplex.Tableau.Cut

/-!
# The values after a cut

A cut appends a row of negated fractional parts and a column for its slack.  The rows and columns that
were there before keep their numbers.

Main results:

- Theorem {lit}`Tableau.get_augment`: what a tableau holds after it has grown.
- Theorem {lit}`Tableau.Represents.augment`: the grown tableau holds zeros in the new row and column.
- Theorem {lit}`Tableau.Represents.addCut`: the numbers and the basis after a cut.
- Theorem {lit}`Tableau.Represents.fractionalRow_cases`: without a fractional row all right-hand sides
  are integers.
-/

namespace ExactSimplex

open Fraction

/-- The numbers after a cut from row `r`. -/
def Values.cut (M : Values) (m n r : ℕ) : Values := fun i j =>
  if i = m + 1 then
    if j ≤ n then -Int.fract (M r j) else if j = n + 1 then 1 else 0
  else if j ≤ n then M i j else 0

namespace Tableau

variable {T : Tableau} {B : Basis} {m n : ℕ} {M : Values} {β : ℕ → ℕ}

/-- The grown tableau keeps what was there and holds zeros in the new column; nothing was stored in the
place of the new row. -/
theorem get_augment (T : Tableau) {i j : ℕ} (hi : i ≤ T.constraints + 1) (hj : j ≤ T.columns + 1) :
    T.augment.get i j = .ok (if j ≤ T.columns then T.entries[i * T.width + j]?.getD Fraction.zero
      else Fraction.zero) := by
  have hplace := (shaped_augment T).place_lt (show i ≤ T.augment.constraints from hi)
    (show j ≤ T.augment.columns from hj)
  have hwidth : T.augment.width = T.width + 1 := rfl
  have hiff : j < T.width ↔ j ≤ T.columns := Nat.lt_succ_iff
  rcases place_div_mod i (show j < T.width + 1 from Nat.lt_succ_of_le hj) with ⟨hrow, hcolumn⟩
  rw [hwidth] at hplace
  rw [get, hwidth, Array.getElem?_eq_getElem hplace, Calc.fetch_some]
  simp only [Tableau.augment, Array.getElem_ofFn, hrow, hcolumn, hiff]

/-- The grown tableau holds zeros in the new row and in the new column. -/
theorem Represents.augment (hT : T.Represents m n M) : T.augment.Represents (m + 1) (n + 1) M := by
  rcases hT with ⟨hwf, rfl, rfl, rfl⟩
  have hreduced : ∀ a ∈ T.augment.entries, a.Reduced := by
    intro a ha
    rcases Array.mem_iff_getElem.mp ha with ⟨k, hk, rfl⟩
    simp only [Tableau.augment, Array.getElem_ofFn]
    split
    · rcases hentry : T.entries[k / (T.width + 1) * T.width + k % (T.width + 1)]? with _ | a
      · exact reduced_zero
      · exact hwf.reduced a (Array.mem_of_getElem? hentry)
    · exact reduced_zero
  have hgrown : T.augment.WellFormed := ⟨shaped_augment T, hreduced⟩
  refine ⟨hgrown, rfl, rfl, ?_⟩
  funext i j
  rcases Nat.lt_or_ge (T.columns + 1) j with hj | hj
  · rw [values_of_columns_lt (show T.augment.columns < j from hj), values_of_columns_lt (by omega)]
  · rcases Nat.lt_or_ge (T.constraints + 1) i with hi | hi
    · rw [hgrown.values_of_constraints_lt (show T.augment.constraints < i from hi),
        hwf.values_of_constraints_lt (by omega)]
    · rw [values_of_get (show j ≤ T.augment.columns from hj) (T.get_augment hi hj)]
      unfold Tableau.values
      by_cases hle : j ≤ T.columns <;> simp [hle]

/-- The negated fractional parts of a row, by induction on its positions. -/
theorem cutEntries_map (f : ℕ → ℚ) (positions : List ℕ) :
    cutEntries .exact (positions.map fun j => ofRat (f j)) =
      .ok (positions.map fun j => ofRat (-Int.fract (f j))) := by
  induction positions with
  | nil => rfl
  | cons j positions ih =>
      simp only [List.map_cons, cutEntries, fract_ofRat, neg_ofRat, ih, bind, Except.bind, pure,
        Except.pure]

/-- The entries of a cut row in exact arithmetic. -/
theorem cutEntries_storedRow (n : ℕ) (f : ℕ → ℚ) :
    cutEntries .exact (storedRow n f) = .ok (storedRow n fun j => -Int.fract (f j)) :=
  cutEntries_map f (List.range (n + 1))

/-- A cut never fails; its slack becomes basic. -/
theorem Represents.addCut (hT : T.Represents m n M) (hB : B.Represents m β) {r : ℕ} (hr : r ≤ m) :
    ∃ U C, addCut .exact T B r = .ok (U, C) ∧ U.Represents (m + 1) (n + 1) (M.cut m n r) ∧
      C.Represents (m + 1) (Function.update β (m + 1) (n + 1)) := by
  have hgrown := hT.augment
  have hcolumns : T.augment.columns = n + 1 := hgrown.columns
  have hconstraints : T.augment.constraints = m + 1 := hgrown.constraints
  have hentries : (storedRow n fun j => -Int.fract (M r j)) ++ [Fraction.one] =
      storedRow (n + 1) (M.cut m n r (m + 1)) := by
    rw [storedRow_add n 1]
    congr 1
    · exact storedRow_congr fun j hj => by rw [Values.cut, if_pos rfl, if_pos hj]
    · simp [Values.cut, one_eq_ofRat]
  have hset := hgrown.setRow le_rfl (f := M.cut m n r (m + 1)) fun j hj => by
    rw [Values.cut, if_pos rfl, if_neg (by omega), if_neg (by omega)]
  refine ⟨_, B.push (n + 1), ?_, hset.congr fun i j => ?_, hB.push (n + 1)⟩
  · unfold Tableau.addCut
    simp only [hT.row hr, cutEntries_storedRow, bind, Except.bind, hentries, hcolumns, hconstraints,
      pure, Except.pure]
  · by_cases hi : i = m + 1
    · rw [hi, Function.update_self]
    · rw [Function.update_of_ne hi, Values.cut, if_neg hi]
      rcases Nat.lt_or_ge n j with hj | hj
      · rw [if_neg (Nat.not_le.mpr hj), hT.eq_zero_of_lt hj]
      · rw [if_pos hj]

/-! ## Fractional rows -/

/-- The search finds no row, and all right-hand sides are integers, or it finds a constraint row. -/
theorem Represents.fractionalRow_cases (hT : T.Represents m n M) :
    (T.fractionalRow = .ok none ∧ ∀ i, 1 ≤ i → i ≤ m → ∃ z : ℤ, M i 0 = z) ∨
      ∃ r, T.fractionalRow = .ok (some r) ∧ 1 ≤ r ∧ r ≤ m := by
  have htest : ∀ i, 1 ≤ i → i < 1 + T.constraints →
      (do let value ← T.rhs i
          pure !value.isInteger : Calc Bool) = .ok (!(ofRat (M i 0)).isInteger) := by
    intro i _ hi
    rw [hT.constraints] at hi
    rw [hT.rhs (by omega)]
    rfl
  unfold fractionalRow
  rcases firstIndex_cases htest with ⟨hnone, hinteger⟩ | ⟨r, hsome, hr, hlt, -⟩
  · refine Or.inl ⟨hnone, fun i hi him => ?_⟩
    have htrue := hinteger i hi (by rw [hT.constraints]; omega)
    rwa [Bool.not_eq_false', isInteger_ofRat_iff] at htrue
  · rw [hT.constraints] at hlt
    exact Or.inr ⟨r, hsome, hr, by omega⟩

end Tableau
end ExactSimplex
