import ExactSimplex.Proofs.Tableau.FirstUnits
import Mathlib.Logic.Equiv.Defs

/-!
# Constraints in another order

The constraint rows of a tableau can be listed in any order, and the entries of a basis with them.  The
tableau and the basis in the other order hold the same numbers and basic variables, row by row, and a
canonical basis stays canonical.  The search for an identity commutes with the reordering.

Main results:

- Theorems {lit}`Tableau.Represents.reorder` and {lit}`Basis.Represents.reorder`: the numbers and the basic
  variables in the other order.
- Theorem {lit}`Values.Canonical.reorder`: a canonical basis stays canonical.
- Theorem {lit}`Tableau.Represents.startingBasis_reorder`: the search finds the basis in the other order.
- Theorem {lit}`Values.Canonical.basicPoint_reorder`: the basic point stays the same.
-/

namespace ExactSimplex

/-- An order of the constraint rows: a permutation of the row numbers that keeps the objective row and what
lies beyond the last row. -/
structure RowOrder (m : ℕ) where
  perm : Equiv.Perm ℕ
  keeps : ∀ i, i = 0 ∨ m < i → perm i = i

namespace RowOrder

variable {m : ℕ} (ρ : RowOrder m)

/-- The order that takes the rows back. -/
def symm : RowOrder m where
  perm := ρ.perm.symm
  keeps i hi := by rw [Equiv.symm_apply_eq, ρ.keeps i hi]

/-- An order and the one that takes it back cancel. -/
@[simp]
theorem perm_perm_symm (i : ℕ) : ρ.perm (ρ.symm.perm i) = i :=
  ρ.perm.apply_symm_apply i

@[simp]
theorem perm_zero : ρ.perm 0 = 0 :=
  ρ.keeps 0 (Or.inl rfl)

theorem perm_eq_iff {i k : ℕ} : ρ.perm i = ρ.perm k ↔ i = k :=
  ρ.perm.injective.eq_iff

/-- Constraint rows go to constraint rows. -/
theorem perm_mem {i : ℕ} (hi : 1 ≤ i) (him : i ≤ m) : 1 ≤ ρ.perm i ∧ ρ.perm i ≤ m := by
  by_contra hout
  have hfixed : ρ.perm (ρ.perm i) = ρ.perm i := ρ.keeps _ (by omega)
  have := ρ.perm_eq_iff.mp hfixed
  omega

/-- A constraint row stays among the rows of the tableau. -/
theorem perm_le {i : ℕ} (him : i ≤ m) : ρ.perm i ≤ m := by
  rcases Nat.eq_zero_or_pos i with rfl | hi
  · rw [perm_zero]
    exact him
  · exact (ρ.perm_mem hi him).2

end RowOrder

/-- The entries of a basis in another order of the rows. -/
def Basis.reorder {m : ℕ} (ρ : RowOrder m) (B : Basis) : Basis :=
  ⟨(List.range B.size).map fun k => B.basic (ρ.perm (k + 1))⟩

/-- The rows of a tableau in another order: row {lit}`i` is the given row {lit}`ρ.perm i`. -/
def Tableau.reorder {m : ℕ} (ρ : RowOrder m) (T : Tableau) : Tableau :=
  { T with entries := T.entries.mapIdx fun k old =>
      T.entries[ρ.perm (k / T.width) * T.width + k % T.width]?.getD old }

/-- The numbers in another order of the rows. -/
def Values.reorder {m : ℕ} (ρ : RowOrder m) (M : Values) : Values :=
  fun i => M (ρ.perm i)

variable {m n : ℕ} {M : Values} {β : ℕ → ℕ} (ρ : RowOrder m)

/-! ## Bases -/

namespace Basis

variable {B C : Basis}

/-- A basis in another order has as many entries. -/
@[simp]
theorem size_reorder (B : Basis) : (B.reorder ρ).size = B.size := by
  simp [reorder, size]

/-- The size and the basic variables determine a basis. -/
theorem Represents.eq (hB : B.Represents m β) (hC : C.Represents m β) : B = C := by
  have hcolumns : B.columns = C.columns := by
    apply List.ext_getElem?
    intro k
    have hlength : B.columns.length = m := hB.size
    have hlength' : C.columns.length = m := hC.size
    rcases Nat.lt_or_ge k m with hk | hk
    · rw [hB.columns_getElem? hk, hC.columns_getElem? hk]
    · rw [List.getElem?_eq_none (by omega), List.getElem?_eq_none (by omega)]
  cases B
  cases C
  rw [mk.injEq]
  exact hcolumns

/-- The basic variables of a reordered basis are those of the given rows. -/
theorem Represents.reorder (hB : B.Represents m β) : (B.reorder ρ).Represents m (β ∘ ρ.perm) := by
  refine ⟨by rw [size_reorder, hB.size], ?_⟩
  funext i
  rw [Function.comp_apply, ← hB.basic]
  cases i with
  | zero => rw [ρ.perm_zero, Basis.basic, Basis.basic]
  | succ k =>
      rcases Nat.lt_or_ge k m with hk | hk
      · simp [Basis.basic, Basis.reorder, hB.size, hk]
      · rw [ρ.keeps (k + 1) (Or.inr (by omega))]
        have hlength : B.columns.length = m := hB.size
        have hnone : (B.reorder ρ).columns[k]? = none := by
          simp [Basis.reorder, hB.size, hk]
        simp only [Basis.basic, hnone, List.getElem?_eq_none (show B.columns.length ≤ k by omega)]

/-- The same for the basic variables that a basis lists itself. -/
theorem basic_reorder (hB : B.size = m) : (B.reorder ρ).basic = B.basic ∘ ρ.perm :=
  (Represents.reorder ρ ⟨hB, rfl⟩).basic

end Basis

/-! ## Tableaux -/

namespace Tableau

variable {T : Tableau} {B : Basis}

/-- A reordered tableau holds the reordered numbers. -/
theorem Represents.reorder (hT : T.Represents m n M) : (T.reorder ρ).Represents m n (M.reorder ρ) := by
  have hshaped : (T.reorder ρ).Shaped := by
    have := hT.wellFormed.shaped
    simpa [Shaped, Tableau.reorder, width] using this
  have hreduced : ∀ a ∈ (T.reorder ρ).entries, a.Reduced := by
    intro a ha
    rcases Array.mem_iff_getElem.mp ha with ⟨k, hk, rfl⟩
    have hold := hT.wellFormed.reduced _ (Array.getElem_mem (by simpa [Tableau.reorder] using hk))
    simp only [Tableau.reorder, Array.getElem_mapIdx]
    rcases hentry : T.entries[ρ.perm (k / T.width) * T.width + k % T.width]? with _ | entry
    · exact hold
    · exact hT.wellFormed.reduced _ (Array.mem_of_getElem? hentry)
  have hU : (T.reorder ρ).WellFormed := ⟨hshaped, hreduced⟩
  have hconstraints : (T.reorder ρ).constraints = m := hT.constraints
  have hcolumns : (T.reorder ρ).columns = n := hT.columns
  refine ⟨hU, hconstraints, hcolumns, ?_⟩
  funext i j
  show _ = M (ρ.perm i) j
  rcases Nat.lt_or_ge n j with hj | hj
  · rw [values_of_columns_lt (by rwa [hcolumns]), hT.eq_zero_of_lt hj]
  · rcases Nat.lt_or_ge m i with hi | hi
    · rw [hU.values_of_constraints_lt (by rwa [hconstraints]), ρ.keeps i (Or.inr hi),
        hT.eq_zero_of_row_lt hi]
    · have hlt : i * T.width + j < T.entries.size :=
        hT.wellFormed.place_lt (by rwa [hT.constraints]) (by rwa [hT.columns])
      have hwidth : j < T.width := by
        rw [width, hT.columns]
        omega
      -- Row and column are read back from the place in the data.
      obtain ⟨hdiv, hmod⟩ := place_div_mod i hwidth
      have hget := Calc.fetch_eq_ok_iff.mp (hT.get (ρ.perm_le hi) hj)
      have hentry : (T.reorder ρ).get i j = .ok (Fraction.ofRat (M (ρ.perm i) j)) := by
        unfold Tableau.get
        rw [Calc.fetch_eq_ok_iff]
        show (T.reorder ρ).entries[i * T.width + j]? = _
        simp only [Tableau.reorder, Array.getElem?_mapIdx, Array.getElem?_eq_getElem hlt, Option.map_some,
          hdiv, hmod, hget, Option.getD_some]
      rw [values_of_get (by rwa [hcolumns]) hentry, Fraction.toRat_ofRat]

end Tableau

/-! ## Canonical bases -/

namespace Values

/-- A canonical tableau stays canonical in every order. -/
theorem Canonical.reorder (hM : M.Canonical m n β) : (M.reorder ρ).Canonical m n (β ∘ ρ.perm) := by
  refine ⟨fun i hi him => ?_, fun i hi him k hk => ?_⟩
  · rcases ρ.perm_mem hi him with ⟨hpos, hle⟩
    exact hM.basic_le _ hpos hle
  · rcases ρ.perm_mem hi him with ⟨hpos, hle⟩
    have hunit := hM.unit _ hpos hle (ρ.perm k) (ρ.perm_le hk)
    simp only [ρ.perm_eq_iff] at hunit
    exact hunit

/-- The value of a variable does not depend on the order of the rows. -/
theorem Canonical.basicPoint_reorder (hM : M.Canonical m n β) :
    (M.reorder ρ).basicPoint m (β ∘ ρ.perm) = M.basicPoint m β := by
  funext c
  unfold basicPoint
  by_cases hc : ∃ i, 1 ≤ i ∧ i ≤ m ∧ β i = c
  · rcases hc with ⟨i, hi, him, rfl⟩
    rcases ρ.symm.perm_mem hi him with ⟨hpos, hle⟩
    have hback := (hM.reorder ρ).scatter_basic hpos hle (g := fun i => M.reorder ρ i 0)
    rw [Function.comp_apply, ρ.perm_perm_symm] at hback
    rw [hback, hM.scatter_basic hi him]
    show M (ρ.perm (ρ.symm.perm i)) 0 = M i 0
    rw [ρ.perm_perm_symm]
  · have hnone : ∀ i, 1 ≤ i → i ≤ m → β i ≠ c := fun i hi him heq => hc ⟨i, hi, him, heq⟩
    rw [scatter_of_not_mem hnone]
    apply scatter_of_not_mem
    intro i hi him
    rcases ρ.perm_mem hi him with ⟨hpos, hle⟩
    exact hnone _ hpos hle

end Values

/-- The first unit vector of a row is that of the given row. -/
theorem FirstUnit.reorder_iff {stop r c : ℕ} :
    FirstUnit (M.reorder ρ) m stop r c ↔ FirstUnit M m stop (ρ.perm r) c := by
  have hunit : ∀ d, (∀ i ≤ m, M.reorder ρ i d = if i = r then 1 else 0) ↔
      ∀ i ≤ m, M i d = if i = ρ.perm r then 1 else 0 := by
    intro d
    constructor
    · intro h i hi
      have := h (ρ.symm.perm i) (ρ.symm.perm_le hi)
      rw [Values.reorder, ρ.perm_perm_symm] at this
      rw [this]
      simp only [← ρ.perm_eq_iff (i := ρ.symm.perm i), ρ.perm_perm_symm]
    · intro h i hi
      rw [Values.reorder, h _ (ρ.perm_le hi)]
      simp only [ρ.perm_eq_iff]
  constructor
  · intro h
    exact ⟨h.pos, h.lt, (hunit c).mp h.unit, fun d hd hdc hd' => h.first d hd hdc ((hunit d).mpr hd')⟩
  · intro h
    exact ⟨h.pos, h.lt, (hunit c).mpr h.unit, fun d hd hdc hd' => h.first d hd hdc ((hunit d).mp hd')⟩

/-- The search finds the basis in the other order, or none in both. -/
theorem Tableau.Represents.startingBasis_reorder {T : Tableau} (hT : T.Represents m n M) :
    (T.reorder ρ).startingBasis .exact =
      (T.startingBasis .exact).map (Option.map (Basis.reorder ρ)) := by
  rcases hT.exists_startingBasis with ⟨found, hfound, hiff⟩
  rcases (hT.reorder ρ).exists_startingBasis with ⟨found', hfound', hiff'⟩
  have hforth : ∀ B, found = some B → found' = some (B.reorder ρ) := by
    intro B hB
    rcases (hiff B).mp hB with ⟨hsize, hfirst⟩
    refine (hiff' _).mpr ⟨by rwa [Basis.size_reorder], fun i hi him => ?_⟩
    rcases ρ.perm_mem hi him with ⟨hpos, hle⟩
    rw [FirstUnit.reorder_iff, Basis.basic_reorder ρ hsize]
    exact hfirst _ hpos hle
  have hback : ∀ B, found' = some B → found = some (B.reorder ρ.symm) := by
    intro B hB
    rcases (hiff' B).mp hB with ⟨hsize, hfirst⟩
    refine (hiff _).mpr ⟨by rwa [Basis.size_reorder], fun i hi him => ?_⟩
    rcases ρ.symm.perm_mem hi him with ⟨hpos, hle⟩
    have := hfirst _ hpos hle
    rwa [FirstUnit.reorder_iff, ρ.perm_perm_symm, ← Function.comp_apply (f := B.basic),
      ← Basis.basic_reorder ρ.symm hsize] at this
  rw [hfound, hfound']
  show Except.ok found' = Except.ok (found.map (Basis.reorder ρ))
  cases found with
  | some B => rw [hforth B rfl, Option.map_some]
  | none =>
      cases found' with
      | none => rfl
      | some B => cases hback B rfl

end ExactSimplex
