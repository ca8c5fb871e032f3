import ExactSimplex.Proofs.Simplex.Exchange
import ExactSimplex.Simplex.PhaseOne

/-!
# Pricing out and copying rows

When the columns of the basic variables are unit vectors of the constraint rows, pivots that reach the
objective row alone make the tableau canonical and leave the constraint rows as they are.

Main results:

- Theorem {lit}`Tableau.Represents.priceOut`: pricing out leads to an equivalent canonical tableau with
  the same constraint rows.
- Theorem {lit}`Tableau.Represents.copyRows`: copying rows from a wider tableau.
-/

namespace ExactSimplex

/-- Among the constraint rows the column of every basic variable is the unit vector of its row. -/
structure Values.UnitRows (M : Values) (m n : ℕ) (β : ℕ → ℕ) : Prop where
  basic_le : ∀ i, 1 ≤ i → i ≤ m → β i ≤ n
  unit : ∀ i, 1 ≤ i → i ≤ m → ∀ k, 1 ≤ k → k ≤ m → M k (β i) = if k = i then 1 else 0

namespace Values

variable {M : Values} {m n : ℕ} {β : ℕ → ℕ}

/-- A pivot on a one that reaches the objective row alone keeps the constraint rows. -/
theorem pivot_objective_row {h t : ℕ} (hone : M t h = 1) {i : ℕ} (hi : 1 ≤ i) :
    M.pivot h t (.row 0) i = M i := by
  funext j
  by_cases hit : i = t
  · rw [hit, pivot_self, hone, div_one]
  · have hreach : ¬(Elimination.row 0).reaches i := fun h => absurd h (by
      show i ≠ 0
      omega)
    rw [Values.pivot, if_neg hit, if_neg hreach]

/-- Eliminating from the objective row at an entry that is one. -/
theorem pivot_objective_zero {h t : ℕ} (hone : M t h = 1) (ht : 1 ≤ t) (j : ℕ) :
    M.pivot h t (.row 0) 0 j = M 0 j - M 0 h * M t j := by
  have hne : 0 ≠ t := (Nat.lt_of_lt_of_le Nat.zero_lt_one ht).ne
  have hreach : (Elimination.row 0).reaches 0 := rfl
  rw [Values.pivot, if_neg hne, if_pos hreach, hone, div_one]

/-- Unit vectors among the constraint rows whose reduced costs are zero make a tableau canonical. -/
theorem UnitRows.canonical (hM : M.UnitRows m n β) (hcosts : ∀ i, 1 ≤ i → i ≤ m → M 0 (β i) = 0) :
    M.Canonical m n β where
  basic_le := hM.basic_le
  unit := by
    intro i hi him k hkm
    rcases Nat.eq_zero_or_pos k with rfl | hk
    · rw [hcosts i hi him, if_neg (by omega)]
    · exact hM.unit i hi him k hk hkm

end Values

namespace Tableau

variable {T S : Tableau} {m n : ℕ} {M G : Values} {β : ℕ → ℕ}

/-- Pricing out makes the reduced costs of the basic variables vanish one after the other, by induction
on the number of rows that are left. -/
theorem Represents.priceOut (hT : T.Represents m n M) {column : ℕ → Calc ℕ}
    (hcolumn : ∀ i, 1 ≤ i → i ≤ m → column i = .ok (β i)) (hM : M.UnitRows m n β) (row count : ℕ)
    (hrow : 1 ≤ row) (hcount : row + count = m + 1)
    (hdone : ∀ i, 1 ≤ i → i < row → M 0 (β i) = 0) :
    ∃ U N, priceOut .exact column row count T = .ok U ∧ U.Represents m n N ∧
      (∀ i, 1 ≤ i → N i = M i) ∧ N.Canonical m n β ∧ Values.Equivalent m n M N := by
  induction count generalizing row T M with
  | zero =>
      exact ⟨T, M, rfl, hT, fun _ _ => rfl,
        hM.canonical fun i hi him => hdone i hi (by omega), .refl m n M⟩
  | succ count ih =>
      have hrowm : row ≤ m := by omega
      have hone : M row (β row) = 1 := by
        rw [hM.unit row hrow hrowm row hrow hrowm, if_pos rfl]
      obtain ⟨V, hV, hVM⟩ := hT.pivot (hM.basic_le row hrow hrowm) hrowm (.row 0) fun i hi => by
        cases hi
        omega
      have hrows : ∀ i, 1 ≤ i → M.pivot (β row) row (.row 0) i = M i := fun i hi =>
        Values.pivot_objective_row hone hi
      have hunit : (M.pivot (β row) row (.row 0)).UnitRows m n β :=
        ⟨hM.basic_le, fun i hi him k hk hkm => by
          rw [hrows k hk]
          exact hM.unit i hi him k hk hkm⟩
      -- The pivot row is zero in the other basic columns, so what was priced out stays so.
      have hpriced : ∀ i, 1 ≤ i → i < row + 1 → M.pivot (β row) row (.row 0) 0 (β i) = 0 := by
        intro i hi hlt
        rw [Values.pivot_objective_zero hone hrow]
        by_cases hirow : i = row
        · rw [hirow, hone, mul_one, sub_self]
        · rw [hdone i hi (by omega), hM.unit i hi (by omega) row hrow hrowm,
            if_neg (Ne.symm hirow), mul_zero, sub_zero]
      obtain ⟨U, N, hU, hUN, hsame, hcanonical, hequivalent⟩ :=
        ih hVM hunit (row + 1) (by omega) (by omega) hpriced
      refine ⟨U, N, ?_, hUN, fun i hi => (hsame i hi).trans (hrows i hi), hcanonical, ?_⟩
      · simp only [Tableau.priceOut, hcolumn row hrow hrowm, hV, hU, bind, Except.bind]
      · have hne : M row (β row) ≠ 0 := by
          rw [hone]
          exact one_ne_zero
        exact (Values.equivalent_pivot hrow hrowm hne (.row 0)).trans hequivalent

/-- The copied rows take the place of those of the tableau, by induction on their number. -/
theorem Represents.copyRows (hT : T.Represents m n M) {N : ℕ} (hS : S.Represents m N G) (hnN : n ≤ N)
    (row count : ℕ) (hcount : row + count ≤ m + 1) :
    ∃ U, copyRows S row count T = .ok U ∧ U.Represents m n fun i j =>
      if (row ≤ i ∧ i < row + count) ∧ j ≤ n then G i j else M i j := by
  induction count generalizing row T M with
  | zero =>
      refine ⟨T, rfl, hT.congr fun i j => ?_⟩
      rw [if_neg (by omega)]
  | succ count ih =>
      have hrowm : row ≤ m := by omega
      have hentries : (storedRow N (G row)).take T.width =
          storedRow n fun j => if j ≤ n then G row j else 0 := by
        rw [width, hT.columns, take_storedRow _ hnN]
        exact storedRow_congr fun j hj => (if_pos hj).symm
      have hset := hT.setRow hrowm (f := fun j => if j ≤ n then G row j else 0)
        fun j hj => if_neg (by omega)
      rcases ih hset (row + 1) (by omega) with ⟨U, hU, hUM⟩
      refine ⟨U, ?_, hUM.congr fun i j => ?_⟩
      · simp only [Tableau.copyRows, hS.row hrowm, hentries, bind, Except.bind]
        exact hU
      · by_cases hi : i = row
        · subst hi
          rcases Nat.lt_or_ge n j with hj | hj
          · simp [Nat.not_le.mpr hj, hT.eq_zero_of_lt hj]
          · simp [hj]
        · have hiff : (row + 1 ≤ i ∧ i < row + 1 + count) ↔ row ≤ i ∧ i < row + (count + 1) := by omega
          simp only [hiff, Function.update_of_ne hi]

end Tableau
end ExactSimplex
