import ExactSimplex.Proofs.Fraction.Operations
import ExactSimplex.Proofs.Tableau.Rows

/-!
# The cells of a tableau in any arithmetic

Where results may wrap, a tableau is described by the fractions that it stores, row by row and column by
column.  All of them are proper.  This module states what the access operations find and what the
replacement of rows does to the cells.

Main results:

- Theorem {lit}`Tableau.Shaped.get_cells`: an entry is the cell of its place.
- Theorem {lit}`Tableau.Stores.row`: a row is the list of its cells.
- Theorem {lit}`Tableau.Stores.setRow`: replacing a row replaces its cells.
- Theorem {lit}`Tableau.Stores.same_of_cells`: tableaux are equal if their cells are.
- Theorem {lit}`Tableau.stores_of_rows`: the cells of rows that are written one after the other.
-/

namespace ExactSimplex

open Fraction

/-- Fractions by row and column. -/
abbrev Cells := ℕ → ℕ → Fraction

namespace Tableau

/-- A well shaped tableau of the given sizes stores the given proper fractions. -/
structure Stores (A : Arithmetic) (T : Tableau) (m n : ℕ) (E : Cells) : Prop where
  shaped : T.Shaped
  constraints : T.constraints = m
  columns : T.columns = n
  get : ∀ i ≤ m, ∀ j ≤ n, T.get i j = .ok (E i j)
  proper : ∀ i ≤ m, ∀ j ≤ n, Proper A (E i j)

/-- The fractions that a tableau stores; zero beyond its data. -/
def cells (T : Tableau) : Cells := fun i j => T.entries[i * T.width + j]?.getD Fraction.zero

variable {A : Arithmetic} {T U : Tableau} {m n : ℕ} {E F : Cells}

/-- An entry of a well shaped tableau is the cell of its place. -/
theorem Shaped.get_cells (hT : T.Shaped) {i j : ℕ} (hi : i ≤ T.constraints) (hj : j ≤ T.columns) :
    T.get i j = .ok (T.cells i j) := by
  have hlt := hT.place_lt hi hj
  simp [Tableau.get, cells, hlt]

/-- A well shaped tableau of proper fractions stores its cells. -/
theorem stores_cells (hT : T.Shaped) (hentries : ∀ a ∈ T.entries, Proper A a) :
    T.Stores A T.constraints T.columns T.cells where
  shaped := hT
  constraints := rfl
  columns := rfl
  get _ hi _ hj := hT.get_cells hi hj
  proper := by
    intro i hi j hj
    have hlt := hT.place_lt hi hj
    have hmem := hentries _ (Array.getElem_mem hlt)
    simpa [cells, hlt] using hmem

namespace Stores

theorem rhs (hT : T.Stores A m n E) {i : ℕ} (hi : i ≤ m) : T.rhs i = .ok (E i 0) :=
  hT.get i hi 0 (Nat.zero_le n)

theorem reducedCost (hT : T.Stores A m n E) {j : ℕ} (hj : j ≤ n) : T.reducedCost j = .ok (E 0 j) :=
  hT.get 0 (Nat.zero_le m) j hj

/-- A row is read as the list of its cells. -/
theorem row (hT : T.Stores A m n E) {i : ℕ} (hi : i ≤ m) : T.row i = .ok (cellRow n (E i)) := by
  rcases hT with ⟨hshaped, rfl, rfl, hget, -⟩
  exact row_eq_cellRow hshaped hi (hget i hi)

/-- The cells of a tableau are those that it stores. -/
theorem cells_eq (hT : T.Stores A m n E) {i j : ℕ} (hi : i ≤ m) (hj : j ≤ n) : T.cells i j = E i j := by
  have hget := hT.get i hi j hj
  unfold Tableau.get at hget
  rw [Calc.fetch_eq_ok_iff] at hget
  rw [cells, hget, Option.getD_some]

/-- Below the last row all cells are zero. -/
theorem cells_of_lt (hT : T.Stores A m n E) {i : ℕ} (hi : m < i) (j : ℕ) :
    T.cells i j = Fraction.zero := by
  rw [← hT.constraints] at hi
  rw [cells, Array.getElem?_eq_none (hT.shaped.size_le_place hi j), Option.getD_none]

/-- Only the cells within the sizes matter. -/
theorem congr (hT : T.Stores A m n E) (h : ∀ i ≤ m, ∀ j ≤ n, E i j = F i j) :
    T.Stores A m n F where
  shaped := hT.shaped
  constraints := hT.constraints
  columns := hT.columns
  get := by
    intro i hi j hj
    rw [← h i hi j hj]
    exact hT.get i hi j hj
  proper := by
    intro i hi j hj
    rw [← h i hi j hj]
    exact hT.proper i hi j hj

/-- Replacing a row by proper fractions replaces its cells. -/
theorem setRow (hT : T.Stores A m n E) {i : ℕ} (hi : i ≤ m) {f : ℕ → Fraction}
    (hf : ∀ j ≤ n, Proper A (f j)) :
    (T.setRow i (cellRow n f)).Stores A m n (Function.update E i f) where
  shaped := shaped_setRow hT.shaped i _
  constraints := hT.constraints
  columns := hT.columns
  get := by
    intro r hr j hj
    have hlt : j < T.width := by
      rw [width, hT.columns]
      omega
    by_cases hri : r = i
    · subst hri
      rw [get_setRow_self _ hlt (hT.get r hr j hj), getElem?_cellRow f hj, Function.update_self]
      rfl
    · rw [get_setRow_of_ne _ hlt hri, Function.update_of_ne hri]
      exact hT.get r hr j hj
  proper := by
    intro r hr j hj
    by_cases hri : r = i
    · subst hri
      rw [Function.update_self]
      exact hf j hj
    · rw [Function.update_of_ne hri]
      exact hT.proper r hr j hj

end Stores

/-! ## Equal tableaux -/

/-- Every entry is the cell of its place. -/
theorem Stores.getElem_entries (hT : T.Stores A m n E) {k : ℕ} (hk : k < T.entries.size) :
    k / (n + 1) ≤ m ∧ k % (n + 1) ≤ n ∧ T.entries[k] = E (k / (n + 1)) (k % (n + 1)) := by
  have hwidth : T.width = n + 1 := congrArg (· + 1) hT.columns
  have hplace := hT.shaped.place_cases hk
  rw [hwidth, hT.constraints, hT.columns] at hplace
  rcases hplace with ⟨hrow, hcolumn, hplace⟩
  refine ⟨hrow, hcolumn, ?_⟩
  rw [← hT.cells_eq hrow hcolumn, Tableau.cells, hwidth, hplace, Array.getElem?_eq_getElem hk,
    Option.getD_some]

/-- Tableaux of the same sizes are equal if their cells are. -/
theorem Stores.same_of_cells (hT : T.Stores A m n E) (hU : U.Stores A m n F)
    (hequal : ∀ i ≤ m, ∀ j ≤ n, Fraction.eq A (E i j) (F i j) = .ok true) : T.same A U = .ok true := by
  have hcolumns : T.columns = U.columns := hT.columns.trans hU.columns.symm
  have hconstraints : T.constraints = U.constraints := hT.constraints.trans hU.constraints.symm
  have hsize : T.entries.size = U.entries.size := by
    rw [hT.shaped, hU.shaped, width, width, hcolumns, hconstraints]
  unfold same
  rw [if_pos ⟨hcolumns, hconstraints⟩]
  apply sameEntries_of_forall₂
  rw [List.forall₂_iff_get]
  refine ⟨hsize, fun k hk hk' => ?_⟩
  rcases hT.getElem_entries hk with ⟨hrow, hcolumn, hE⟩
  rcases hU.getElem_entries hk' with ⟨-, -, hF⟩
  rw [List.get_eq_getElem, List.get_eq_getElem, Array.getElem_toList, Array.getElem_toList, hE, hF]
  exact hequal _ hrow _ hcolumn

/-! ## Tableaux from rows -/

/-- The tableau whose data are some rows of cells stores these cells. -/
theorem stores_of_rows (hproper : ∀ i ≤ m, ∀ j ≤ n, Proper A (E i j)) :
    (⟨n, m, ((List.range (m + 1)).map fun i => cellRow n (E i)).flatten.toArray⟩ :
      Tableau).Stores A m n E :=
  ⟨shaped_of_rows n m E, rfl, rfl, fun _ hi _ hj => get_of_rows n m E hi hj, hproper⟩

end Tableau
end ExactSimplex
