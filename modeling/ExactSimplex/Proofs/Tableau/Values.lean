import ExactSimplex.Proofs.Fraction.Exact
import ExactSimplex.Proofs.Tableau.Rows

/-!
# The values of a tableau

A tableau of reduced fractions holds rational numbers by row and column.  This module states what the
access operations do to these numbers, so that later proofs need not look at the stored data.

Main results:

- Theorem {lit}`Tableau.get_eq_ofRat`: an entry is the reduced pair of its value.
- Theorem {lit}`Tableau.row_eq_storedRow`: a row is the list of its reduced pairs.
- Theorem {lit}`Tableau.values_setRow`: replacing a row replaces the values of that row.
- Theorem {lit}`Tableau.represents_of_rows`: the tableau of some stored rows holds their numbers.
- Theorem {lit}`Tableau.Represents.eq`: sizes and values determine a tableau.
-/

namespace ExactSimplex

open Fraction

/-- Rational numbers by row and column. -/
abbrev Values := ℕ → ℕ → ℚ

namespace Tableau

/-- The rational numbers that a tableau holds; zero beyond its columns and rows. -/
def values (T : Tableau) : Values := fun i j =>
  if j ≤ T.columns then (T.entries[i * T.width + j]?.getD Fraction.zero).toRat else 0

/-- The data are exactly the rows of the tableau, and every entry is a reduced fraction. -/
structure WellFormed (T : Tableau) : Prop where
  shaped : T.Shaped
  reduced : ∀ a ∈ T.entries, a.Reduced

instance (T : Tableau) : Decidable T.WellFormed :=
  decidable_of_iff (T.Shaped ∧ ∀ a ∈ T.entries, a.Reduced) ⟨fun h => ⟨h.1, h.2⟩, fun h => ⟨h.1, h.2⟩⟩

/-- The stored form of the first numbers of a row. -/
def storedRow (columns : ℕ) (f : ℕ → ℚ) : List Fraction :=
  (List.range (columns + 1)).map fun j => ofRat (f j)

/-- The entries of a stored row are the fractions of its numbers. -/
theorem getElem?_storedRow {columns j : ℕ} (f : ℕ → ℚ) (hj : j ≤ columns) :
    (storedRow columns f)[j]? = some (ofRat (f j)) :=
  getElem?_cellRow _ hj

/-- Only the numbers within the columns matter. -/
theorem storedRow_congr {columns : ℕ} {f g : ℕ → ℚ} (h : ∀ j ≤ columns, f j = g j) :
    storedRow columns f = storedRow columns g :=
  cellRow_congr fun j hj => congrArg ofRat (h j hj)

theorem take_storedRow {columns count : ℕ} (f : ℕ → ℚ) (h : count ≤ columns) :
    (storedRow columns f).take (count + 1) = storedRow count f :=
  take_cellRow _ h

/-- A stored row is its first part followed by its last entries. -/
theorem storedRow_add (n m : ℕ) (f : ℕ → ℚ) :
    storedRow (n + m) f = storedRow n f ++ (List.range m).map fun k => ofRat (f (n + 1 + k)) :=
  cellRow_add n m _

/-! ## Entries -/

variable {T U : Tableau}

/-- Beyond the last column all numbers are zero. -/
theorem values_of_columns_lt {i j : ℕ} (hj : T.columns < j) : T.values i j = 0 := by
  simp [values, Nat.not_le.mpr hj]

/-- The place of an entry lies within the data. -/
theorem WellFormed.place_lt (hT : T.WellFormed) {i j : ℕ} (hi : i ≤ T.constraints)
    (hj : j ≤ T.columns) : i * T.width + j < T.entries.size :=
  hT.shaped.place_lt hi hj

/-- Below the last row all numbers are zero. -/
theorem WellFormed.values_of_constraints_lt (hT : T.WellFormed) {i j : ℕ}
    (hi : T.constraints < i) : T.values i j = 0 := by
  simp [values, Array.getElem?_eq_none (hT.shaped.size_le_place hi j)]

/-- Every entry of a well formed tableau is the fraction of its number. -/
theorem get_eq_ofRat (hT : T.WellFormed) {i j : ℕ} (hi : i ≤ T.constraints)
    (hj : j ≤ T.columns) : T.get i j = .ok (ofRat (T.values i j)) := by
  have hlt := hT.place_lt hi hj
  have hreduced := hT.reduced _ (Array.getElem_mem hlt)
  simp [get, values, hj, hlt, ofRat_toRat hreduced]

/-- The number at a place is the value of its entry. -/
theorem values_of_get {i j : ℕ} {a : Fraction} (hj : j ≤ T.columns) (h : T.get i j = .ok a) :
    T.values i j = a.toRat := by
  have hsome := Calc.fetch_eq_ok_iff.mp h
  simp [values, hj, hsome]

/-- A column beyond the last one is missing from the last row. -/
theorem get_last_row_of_columns_lt (hT : T.Shaped) {j : ℕ} (hj : T.columns < j) :
    T.get T.constraints j = .error .outOfRange := by
  have hplace : T.entries.size ≤ T.constraints * T.width + j := by
    rw [hT, Nat.succ_mul]
    exact Nat.add_le_add_left hj _
  simp [get, Array.getElem?_eq_none hplace]

/-! ## Rows -/

/-- A row of a well formed tableau is stored as its numbers. -/
theorem row_eq_storedRow (hT : T.WellFormed) {i : ℕ} (hi : i ≤ T.constraints) :
    T.row i = .ok (storedRow T.columns (T.values i)) :=
  row_eq_cellRow hT.shaped hi fun _ hj => get_eq_ofRat hT hi hj

/-- Replacing a row by reduced fractions keeps a tableau well formed. -/
theorem WellFormed.setRow (hT : T.WellFormed) (i : ℕ) {entries : List Fraction}
    (hentries : ∀ a ∈ entries, a.Reduced) : (T.setRow i entries).WellFormed where
  shaped := shaped_setRow hT.shaped i entries
  reduced := by
    intro a ha
    rcases Array.mem_iff_getElem.mp ha with ⟨k, hk, rfl⟩
    simp only [Tableau.setRow, Array.getElem_mapIdx]
    have hold := hT.reduced _ (Array.getElem_mem (by simpa using hk))
    split
    · rcases hentry : entries[k % T.width]? with _ | new
      · exact hold
      · exact hentries new (List.mem_of_getElem? hentry)
    · exact hold

/-- Stored rows consist of reduced fractions. -/
theorem reduced_of_mem_storedRow {columns : ℕ} {f : ℕ → ℚ} {a : Fraction}
    (ha : a ∈ storedRow columns f) : a.Reduced := by
  rcases List.mem_map.mp ha with ⟨j, -, rfl⟩
  exact reduced_ofRat _

/-- Replacing a row by numbers that vanish beyond the last column replaces exactly the values of that
row. -/
theorem values_setRow (hT : T.WellFormed) {i : ℕ} (hi : i ≤ T.constraints) {f : ℕ → ℚ}
    (hf : ∀ j, T.columns < j → f j = 0) :
    (T.setRow i (storedRow T.columns f)).values = Function.update T.values i f := by
  have hU : (T.setRow i (storedRow T.columns f)).WellFormed :=
    hT.setRow i fun a ha => reduced_of_mem_storedRow ha
  funext r j
  rcases Nat.lt_or_ge T.columns j with hj | hj
  · rw [values_of_columns_lt (by simpa using hj)]
    by_cases hr : r = i
    · subst hr
      rw [Function.update_self, hf j hj]
    · rw [Function.update_of_ne hr, values_of_columns_lt hj]
  · have hlt : j < T.width := Nat.lt_succ_of_le hj
    rcases Nat.lt_or_ge T.constraints r with hr | hr
    · have hne : r ≠ i := (lt_of_le_of_lt hi hr).ne'
      rw [hU.values_of_constraints_lt (by simpa using hr), Function.update_of_ne hne,
        hT.values_of_constraints_lt hr]
    · have hget := get_eq_ofRat hT hr hj
      by_cases hri : r = i
      · subst hri
        have hnew := get_setRow_self (storedRow T.columns f) hlt hget
        rw [getElem?_storedRow f hj, Option.getD_some] at hnew
        rw [Function.update_self, values_of_get (by simpa using hj) hnew, toRat_ofRat]
      · have hold := get_setRow_of_ne (storedRow T.columns f) hlt hri
        rw [hget] at hold
        rw [Function.update_of_ne hri, values_of_get (by simpa using hj) hold, toRat_ofRat]

/-! ## Representation -/

/-- A well formed tableau has the given sizes and holds the given numbers. -/
structure Represents (T : Tableau) (m n : ℕ) (M : Values) : Prop where
  wellFormed : T.WellFormed
  constraints : T.constraints = m
  columns : T.columns = n
  values : T.values = M

/-- A well formed tableau holds its own numbers. -/
theorem WellFormed.represents (hT : T.WellFormed) :
    T.Represents T.constraints T.columns T.values :=
  ⟨hT, rfl, rfl, rfl⟩

section Represents

variable {m n : ℕ} {M : Values}

/-- An entry is the fraction of the number at its place. -/
theorem Represents.get (hT : T.Represents m n M) {i j : ℕ} (hi : i ≤ m) (hj : j ≤ n) :
    T.get i j = .ok (ofRat (M i j)) := by
  rw [← hT.values]
  exact get_eq_ofRat hT.wellFormed (hT.constraints ▸ hi) (hT.columns ▸ hj)

theorem Represents.rhs (hT : T.Represents m n M) {i : ℕ} (hi : i ≤ m) :
    T.rhs i = .ok (ofRat (M i 0)) :=
  hT.get hi (Nat.zero_le n)

theorem Represents.reducedCost (hT : T.Represents m n M) {j : ℕ} (hj : j ≤ n) :
    T.reducedCost j = .ok (ofRat (M 0 j)) :=
  hT.get (Nat.zero_le m) hj

/-- The objective value is the negated corner. -/
theorem Represents.objectiveValue (hT : T.Represents m n M) :
    T.objectiveValue .exact = .ok (ofRat (-M 0 0)) := by
  unfold Tableau.objectiveValue
  rw [hT.get (Nat.zero_le m) (Nat.zero_le n)]
  exact neg_ofRat _

/-- A row as the list of its numbers. -/
theorem Represents.row (hT : T.Represents m n M) {i : ℕ} (hi : i ≤ m) :
    T.row i = .ok (storedRow n (M i)) := by
  rw [← hT.values, ← hT.columns]
  exact row_eq_storedRow hT.wellFormed (hT.constraints ▸ hi)

/-- The numbers beyond the last column are zero. -/
theorem Represents.eq_zero_of_lt (hT : T.Represents m n M) {i j : ℕ} (hj : n < j) :
    M i j = 0 := by
  rw [← hT.values]
  exact values_of_columns_lt (hT.columns ▸ hj)

/-- The numbers below the last row are zero. -/
theorem Represents.eq_zero_of_row_lt (hT : T.Represents m n M) {i j : ℕ} (hi : m < i) :
    M i j = 0 := by
  rw [← hT.values]
  exact hT.wellFormed.values_of_constraints_lt (hT.constraints ▸ hi)

/-- Equal numbers are held, too. -/
theorem Represents.congr {N : Values} (hT : T.Represents m n M) (h : ∀ i j, M i j = N i j) :
    T.Represents m n N :=
  (funext fun i => funext (h i) : M = N) ▸ hT

/-- Replacing a row replaces its numbers. -/
theorem Represents.setRow (hT : T.Represents m n M) {i : ℕ} (hi : i ≤ m) {f : ℕ → ℚ}
    (hf : ∀ j, n < j → f j = 0) :
    (T.setRow i (storedRow n f)).Represents m n (Function.update M i f) where
  wellFormed := hT.wellFormed.setRow i fun _ ha => reduced_of_mem_storedRow ha
  constraints := hT.constraints
  columns := hT.columns
  values := by
    rcases hT with ⟨hwf, rfl, rfl, rfl⟩
    exact values_setRow hwf hi hf

end Represents

/-! ## Tableaux from rows -/

/-- The tableau whose data are the stored rows of some numbers holds these numbers. -/
theorem represents_of_rows {m n : ℕ} {M : Values} (hcolumn : ∀ i j, n < j → M i j = 0)
    (hrow : ∀ i j, m < i → M i j = 0) :
    (⟨n, m, ((List.range (m + 1)).map fun i => storedRow n (M i)).flatten.toArray⟩ :
      Tableau).Represents m n M := by
  set rows := (List.range (m + 1)).map fun i => storedRow n (M i) with hrows
  have hshaped : (⟨n, m, rows.flatten.toArray⟩ : Tableau).Shaped := shaped_of_rows n m _
  have hreduced : ∀ a ∈ rows.flatten.toArray, a.Reduced := by
    intro a ha
    rcases List.mem_flatten.mp (List.mem_toArray.mp ha) with ⟨row, hmem, ha⟩
    rcases List.mem_map.mp hmem with ⟨i, -, rfl⟩
    exact reduced_of_mem_storedRow ha
  have hU : (⟨n, m, rows.flatten.toArray⟩ : Tableau).WellFormed := ⟨hshaped, hreduced⟩
  refine ⟨hU, rfl, rfl, ?_⟩
  funext i j
  rcases Nat.lt_or_ge n j with hj | hj
  · rw [hcolumn i j hj, values_of_columns_lt hj]
  · rcases Nat.lt_or_ge m i with hi | hi
    · rw [hrow i j hi, hU.values_of_constraints_lt hi]
    · have hget := get_of_rows n m (fun i j => ofRat (M i j)) hi hj
      rw [← toRat_ofRat (M i j)]
      exact values_of_get hj hget

/-! ## Extensionality -/

/-- Sizes and numbers determine a well formed tableau. -/
theorem Represents.eq {m n : ℕ} {M N : Values} (hT : T.Represents m n M) (hU : U.Represents m n N)
    (hvalues : ∀ i ≤ m, ∀ j ≤ n, M i j = N i j) : T = U := by
  refine hT.wellFormed.shaped.eq_of_get hU.wellFormed.shaped (hU.constraints.trans hT.constraints.symm)
    (hU.columns.trans hT.columns.symm) fun i hi j hj => ?_
  rw [hT.constraints] at hi
  rw [hT.columns] at hj
  rw [hT.get hi hj, hU.get hi hj, hvalues i hi j hj]

end Tableau
end ExactSimplex
