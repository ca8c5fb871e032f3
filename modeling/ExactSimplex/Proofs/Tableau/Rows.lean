import ExactSimplex.Proofs.Calc
import ExactSimplex.Tableau.Basic

/-!
# Rows of a tableau

A well shaped tableau stores its rows one after the other.  This module states where the entries of a row
are found, for rows that are given as functions of the column.

Main results:

- Theorem {lit}`Tableau.Shaped.place_cases`: every place of the data belongs to a row and a column.
- Theorem {lit}`Tableau.Shaped.eq_of_get`: sizes and entries determine a tableau.
- Theorem {lit}`Tableau.row_eq_cellRow`: a row is the list of its entries.
- Theorems {lit}`Tableau.shaped_of_rows` and {lit}`Tableau.get_of_rows`: the tableau of some rows.
-/

namespace ExactSimplex
namespace Tableau

/-- The first fractions of a row as a list. -/
def cellRow (columns : ℕ) (f : ℕ → Fraction) : List Fraction :=
  (List.range (columns + 1)).map f

@[simp]
theorem length_cellRow (columns : ℕ) (f : ℕ → Fraction) : (cellRow columns f).length = columns + 1 := by
  simp [cellRow]

theorem getElem?_cellRow {columns j : ℕ} (f : ℕ → Fraction) (hj : j ≤ columns) :
    (cellRow columns f)[j]? = some (f j) := by
  have hlt : j < columns + 1 := Nat.lt_succ_of_le hj
  simp [cellRow, hlt]

theorem take_cellRow {columns count : ℕ} (f : ℕ → Fraction) (h : count ≤ columns) :
    (cellRow columns f).take (count + 1) = cellRow count f := by
  unfold cellRow
  rw [← List.map_take, List.take_range, Nat.min_eq_left (Nat.succ_le_succ h)]

/-- A row is its first part followed by its last cells. -/
theorem cellRow_add (n m : ℕ) (f : ℕ → Fraction) :
    cellRow (n + m) f = cellRow n f ++ (List.range m).map fun k => f (n + 1 + k) := by
  unfold cellRow
  rw [show n + m + 1 = n + 1 + m by omega, List.range_add, List.map_append, List.map_map]
  rfl

/-- Only the cells within the columns matter. -/
theorem cellRow_congr {columns : ℕ} {f g : ℕ → Fraction} (h : ∀ j ≤ columns, f j = g j) :
    cellRow columns f = cellRow columns g := by
  unfold cellRow
  apply List.map_congr_left
  intro j hj
  rw [h j (Nat.le_of_lt_succ (List.mem_range.mp hj))]

/-! ## Places -/

variable {T : Tableau}

/-- The place of an entry lies within the data. -/
theorem Shaped.place_lt (hT : T.Shaped) {i j : ℕ} (hi : i ≤ T.constraints) (hj : j ≤ T.columns) :
    i * T.width + j < T.entries.size := by
  rw [hT]
  exact index_lt (Nat.lt_succ_of_le hi) (Nat.lt_succ_of_le hj)

/-- Every place of the data belongs to a row and a column. -/
theorem Shaped.place_cases (hT : T.Shaped) {k : ℕ} (hk : k < T.entries.size) :
    k / T.width ≤ T.constraints ∧ k % T.width ≤ T.columns ∧ k / T.width * T.width + k % T.width = k := by
  have hpos : 0 < T.width := Nat.succ_pos _
  refine ⟨?_, Nat.le_of_lt_succ (Nat.mod_lt k hpos), Nat.div_add_mod' k T.width⟩
  apply Nat.le_of_lt_succ
  rw [Nat.div_lt_iff_lt_mul hpos, ← hT]
  exact hk

/-- Sizes and entries determine a well shaped tableau. -/
theorem Shaped.eq_of_get {U : Tableau} (hT : T.Shaped) (hU : U.Shaped)
    (hconstraints : U.constraints = T.constraints) (hcolumns : U.columns = T.columns)
    (hget : ∀ i ≤ T.constraints, ∀ j ≤ T.columns, T.get i j = U.get i j) : T = U := by
  have hwidth : U.width = T.width := congrArg (· + 1) hcolumns
  have hsize : T.entries.size = U.entries.size := by rw [hT, hU, hconstraints, hwidth]
  have hentries : T.entries = U.entries := by
    apply Array.ext hsize
    intro k hk hk'
    rcases hT.place_cases hk with ⟨hrow, hcolumn, hplace⟩
    have hentry := hget _ hrow _ hcolumn
    unfold Tableau.get at hentry
    rw [hwidth, hplace, Array.getElem?_eq_getElem hk, Array.getElem?_eq_getElem hk'] at hentry
    exact Except.ok.inj hentry
  cases T
  cases U
  simp_all

/-- Below the constraint rows there are no data. -/
theorem Shaped.size_le_place (hT : T.Shaped) {i : ℕ} (hi : T.constraints < i) (j : ℕ) :
    T.entries.size ≤ i * T.width + j :=
  calc T.entries.size = (T.constraints + 1) * T.width := hT
    _ ≤ i * T.width := Nat.mul_le_mul_right _ hi
    _ ≤ i * T.width + j := Nat.le_add_right _ _

/-- A row is the list of its entries. -/
theorem row_eq_cellRow (hT : T.Shaped) {i : ℕ} (hi : i ≤ T.constraints) {f : ℕ → Fraction}
    (hf : ∀ j ≤ T.columns, T.get i j = .ok (f j)) : T.row i = .ok (cellRow T.columns f) := by
  have hend : (i + 1) * T.width ≤ T.entries.size := by
    rw [hT]
    exact Nat.mul_le_mul_right _ (Nat.succ_le_succ hi)
  have hlength : (i + 1) * T.width - i * T.width = T.columns + 1 := by
    rw [Nat.succ_mul, Nat.add_sub_cancel_left]
    rfl
  unfold row
  rw [if_pos hend]
  congr 1
  apply List.ext_getElem
  · simp only [Array.toList_extract, List.extract_eq_take_drop, List.length_take, List.length_drop,
      Array.length_toList, length_cellRow]
    omega
  · intro j hj hj'
    rw [length_cellRow] at hj'
    have hle : j ≤ T.columns := Nat.le_of_lt_succ hj'
    have hlt := hT.place_lt hi hle
    have hcell : T.entries[i * T.width + j] = f j := by
      simpa [Tableau.get, hlt] using hf j hle
    simp [cellRow, hcell]

/-- Entries that are equal pair by pair are the same. -/
theorem sameEntries_of_forall₂ {A : Arithmetic} {l l' : List Fraction}
    (h : List.Forall₂ (fun a b => Fraction.eq A a b = .ok true) l l') : sameEntries A l l' = .ok true := by
  induction h with
  | nil => rfl
  | cons hequal _ ih => simp [sameEntries, hequal, ih, bind, Except.bind]

/-! ## Tableaux from rows -/

/-- The entries of rows of one length that are written one after the other. -/
theorem getElem?_flatten {α : Type} {rows : List (List α)} {width : ℕ}
    (hrows : ∀ row ∈ rows, row.length = width) (i : ℕ) {j : ℕ} (hj : j < width) :
    rows.flatten[i * width + j]? = rows[i]?.bind fun row => row[j]? := by
  induction rows generalizing i with
  | nil => simp
  | cons row rows ih =>
      have hlength : row.length = width := hrows row List.mem_cons_self
      have hrest := ih fun row hrow => hrows row (List.mem_cons_of_mem _ hrow)
      rw [List.flatten_cons]
      cases i with
      | zero =>
          rw [Nat.zero_mul, Nat.zero_add, List.getElem?_append_left (by omega)]
          rfl
      | succ i =>
          have hplace : (i + 1) * width + j = row.length + (i * width + j) := by
            rw [hlength, Nat.succ_mul]
            omega
          rw [hplace, List.getElem?_append_right (Nat.le_add_right _ _), Nat.add_sub_cancel_left,
            hrest i]
          rfl

section

variable (n m : ℕ) (E : ℕ → ℕ → Fraction)

/-- The data are as many rows as the tableau has. -/
theorem shaped_of_rows :
    (⟨n, m, ((List.range (m + 1)).map fun i => cellRow n (E i)).flatten.toArray⟩ :
      Tableau).Shaped := by
  set rows := (List.range (m + 1)).map fun i => cellRow n (E i) with hrows
  have hlength : ∀ row ∈ rows, row.length = n + 1 := by
    intro row hmem
    rcases List.mem_map.mp hmem with ⟨i, -, rfl⟩
    exact length_cellRow n (E i)
  have hsum : (rows.map List.length).sum = (m + 1) * (n + 1) := by
    rw [List.map_congr_left hlength, List.map_const', List.sum_replicate_nat, hrows,
      List.length_map, List.length_range]
  simpa [Shaped, width, List.length_flatten] using hsum

/-- A tableau that is made of rows has their cells. -/
theorem get_of_rows {i j : ℕ} (hi : i ≤ m) (hj : j ≤ n) :
    (⟨n, m, ((List.range (m + 1)).map fun i => cellRow n (E i)).flatten.toArray⟩ :
      Tableau).get i j = .ok (E i j) := by
  have hlength : ∀ row ∈ (List.range (m + 1)).map (fun i => cellRow n (E i)), row.length = n + 1 := by
    intro row hmem
    rcases List.mem_map.mp hmem with ⟨i, -, rfl⟩
    exact length_cellRow n (E i)
  have hplace := getElem?_flatten hlength i (Nat.lt_succ_of_le hj)
  have hsome : ((List.range (m + 1)).map fun i => cellRow n (E i))[i]? = some (cellRow n (E i)) := by
    simp [Nat.lt_succ_of_le hi]
  rw [hsome, Option.bind_some, getElem?_cellRow (E i) hj] at hplace
  simp [Tableau.get, width, hplace]

end

end Tableau
end ExactSimplex
