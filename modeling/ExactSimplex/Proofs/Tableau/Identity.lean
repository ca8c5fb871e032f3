import ExactSimplex.Proofs.Tableau.Elimination
import ExactSimplex.Proofs.Tableau.GivenBasis
import ExactSimplex.Proofs.Tableau.StartingBasis

/-!
# Identities in any arithmetic

Zero and one have a single proper form each, so the tests for them look at the stored cell.  Hence a
basis that is accepted, and an identity that is found, consist of columns that are exactly the unit
vectors of their rows.

Main results:

- Theorem {lit}`Tableau.Stores.isCanonical_iff`: the test decides whether a basis is canonical.
- Theorem {lit}`Tableau.Stores.safe_basisDefect`: a given basis without a defect is canonical.
- Theorem {lit}`Tableau.Stores.safe_startingBasis`: an identity that is found is canonical.
-/

namespace ExactSimplex

open Calc Fraction

variable {A : Arithmetic} {T : Tableau} {B : Basis} {m n : ℕ} {E : Cells} {β : ℕ → ℕ}

/-! ## Zeros and ones -/

/-- The pattern of zeros and ones among the cells, where two stands for any other fraction. -/
def Cells.pattern (E : Cells) : Values := fun i j =>
  if E i j = Fraction.zero then 0 else if E i j = Fraction.one then 1 else 2

namespace Cells

/-- The pattern is zero exactly at the zero cells. -/
theorem pattern_eq_zero_iff {i j : ℕ} : E.pattern i j = 0 ↔ E i j = Fraction.zero := by
  unfold pattern
  split
  · next h => simp [h]
  · next h => split <;> simp [h]

/-- The pattern is one exactly at the cells that are one. -/
theorem pattern_eq_one_iff {i j : ℕ} : E.pattern i j = 1 ↔ E i j = Fraction.one := by
  unfold pattern
  split
  · next h =>
      rw [h]
      simp [Fraction.zero, Fraction.one, Fraction.ofInt]
  · split
    · next h => simp [h]
    · next h => simp [h]

/-- The pattern is that of a unit vector exactly where the cells are. -/
theorem pattern_eq_unit_iff {i j : ℕ} {p : Prop} [Decidable p] :
    E.pattern i j = (if p then 1 else 0) ↔
      E i j = if p then Fraction.one else Fraction.zero := by
  split
  · exact pattern_eq_one_iff
  · exact pattern_eq_zero_iff

end Cells

namespace Tableau
namespace Stores

/-! ## The test for a canonical basis -/

/-- The test of an entry looks at its cell. -/
theorem isUnitEntry (hA : A.holds 1 = true) (hT : T.Stores A m n E) {c i : ℕ} (hc : c ≤ n)
    (hi : i ≤ m) (u : ℕ) : T.isUnitEntry A c u i =
      .ok (decide (E i c = if i = u then Fraction.one else Fraction.zero)) := by
  have hproper := hT.proper i hi c hc
  unfold Tableau.isUnitEntry
  rw [hT.get i hi c hc]
  by_cases hiu : i = u
  · simp [bind, Except.bind, hiu, isOne_eq hA (hiu ▸ hproper)]
  · simp only [bind, Except.bind, hiu, if_false, pure, Except.pure, Except.ok.injEq]
    rw [Bool.eq_iff_iff, hproper.isZero_iff, decide_eq_true_eq]

/-- The test of a column looks at its cells. -/
theorem isUnitColumn_iff (hA : A.holds 1 = true) (hT : T.Stores A m n E) {c u : ℕ} (hc : c ≤ n) :
    T.isUnitColumn A c u = .ok true ↔
      ∀ i ≤ m, E i c = if i = u then Fraction.one else Fraction.zero := by
  unfold Tableau.isUnitColumn
  rw [allIndices_eq_true_iff, hT.constraints]
  constructor
  · intro h i hi
    have hentry := h i (Nat.zero_le i) (by omega)
    rwa [hT.isUnitEntry hA hc hi, Except.ok.injEq, decide_eq_true_eq] at hentry
  · intro hunit i _ hlt
    have hi : i ≤ m := by omega
    rw [hT.isUnitEntry hA hc hi, hunit i hi, decide_eq_true rfl]

/-- The test decides whether columns of the tableau are the unit vectors of their rows. -/
theorem isCanonical_iff_units (hA : A.holds 1 = true) (hT : T.Stores A m n E) (hB : B.Represents m β)
    (hβ : ∀ i, 1 ≤ i → i ≤ m → β i ≤ n) : T.isCanonical A B = .ok true ↔ E.Units m n β := by
  unfold Tableau.isCanonical
  rw [if_pos (hB.size.trans hT.constraints.symm), areUnitColumns_iff]
  constructor
  · intro h
    refine ⟨hβ, fun i hi him => ?_⟩
    rcases Nat.exists_eq_add_of_le' hi with ⟨i, rfl⟩
    have := (hT.isUnitColumn_iff hA (hβ _ hi him)).mp (h i _ (hB.columns_getElem? (by omega)))
    rwa [Nat.add_comm 1 i] at this
  · intro hE k c hc
    rcases hB.columns_getElem?_iff.mp hc with ⟨hk, rfl⟩
    rw [hT.isUnitColumn_iff hA (hE.basic_le _ (by omega) (by omega)), Nat.add_comm 1 k]
    exact hE.unit _ (by omega) (by omega)

/-- The test decides whether variables of the tableau form a canonical basis. -/
theorem isCanonical_iff (hA : A.holds 1 = true) (hT : T.Stores A m n E) (hB : B.Represents m β)
    (hβ : ∀ i, 1 ≤ i → i ≤ m → 1 ≤ β i ∧ β i ≤ n) :
    T.isCanonical A B = .ok true ↔ E.Canonical m n β := by
  rw [hT.isCanonical_iff_units hA hB fun i hi him => (hβ i hi him).2]
  exact ⟨fun hE => ⟨fun i hi him => (hβ i hi him).1, hE.basic_le, hE.unit⟩, Cells.Canonical.units⟩

/-- The test of a column is safe. -/
theorem safe_isUnitColumn (hA : A.holds 1 = true) (hT : T.Stores A m n E) {c : ℕ} (hc : c ≤ n)
    (u : ℕ) : Safe A (T.isUnitColumn A c u) fun _ => True := by
  have hall : ∀ count start, start + count ≤ m + 1 →
      Safe A (allIndices (T.isUnitEntry A c u) start count) fun _ => True := by
    intro count
    induction count with
    | zero => exact fun _ _ => safe_pure trivial
    | succ count ih =>
        intro start hstart
        rw [allIndices_succ, hT.isUnitEntry hA hc (by omega)]
        refine safe_ok_bind ?_
        by_cases hunit : E start c = if start = u then Fraction.one else Fraction.zero
        · rw [decide_eq_true hunit, if_pos rfl]
          exact ih (start + 1) (by omega)
        · rw [decide_eq_false hunit]
          exact safe_pure trivial
  unfold Tableau.isUnitColumn
  rw [hT.constraints]
  exact hall (m + 1) 0 (by omega)

/-- The test never leaves the data if the basis consists of columns of the tableau. -/
theorem safe_isCanonical (hA : A.holds 1 = true) (hT : T.Stores A m n E)
    (hB : ∀ c ∈ B.columns, c ≤ n) : Safe A (T.isCanonical A B) fun _ => True := by
  have hcolumns : ∀ columns : List ℕ, (∀ c ∈ columns, c ≤ n) → ∀ row,
      Safe A (T.areUnitColumns A row columns) fun _ => True := by
    intro columns
    induction columns with
    | nil => exact fun _ _ => safe_pure trivial
    | cons c rest ih =>
        intro hmem row
        rw [List.forall_mem_cons] at hmem
        refine (hT.safe_isUnitColumn hA hmem.1 row).bind fun passed _ => ?_
        split
        · exact ih hmem.2 (row + 1)
        · exact safe_pure trivial
  unfold Tableau.isCanonical
  split
  · exact hcolumns B.columns hB 1
  · exact safe_pure trivial

/-- A given basis without a defect is canonical. -/
theorem safe_basisDefect (hA : A.holds 1 = true) (hT : T.Stores A m n E) :
    Safe A (T.basisDefect A B) fun defect => defect = none →
      B.Represents m B.basic ∧ E.Canonical m n B.basic := by
  have hsafe : Safe A (T.basisDefect A B) fun _ => True := by
    unfold Tableau.basisDefect
    split
    · cases hdefect : entryDefect T.columns [] B.columns with
      | some defect => exact safe_pure trivial
      | none =>
          have hrange := (entryDefect_eq_none_iff.mp hdefect).1
          refine (hT.safe_isCanonical hA fun c hc => ?_).bind fun passed _ => ?_
          · exact hT.columns ▸ (hrange c hc).1.2
          · split <;> exact safe_pure trivial
    · exact safe_pure trivial
  refine hsafe.with_eq.imp fun defect hdefect hnone => ?_
  subst hnone
  rcases basisDefect_eq_none_iff.mp hdefect.1 with ⟨hsize, hrange, -, hcanonical⟩
  have hB : B.Represents m B.basic := ⟨hsize.trans hT.constraints, rfl⟩
  refine ⟨hB, (hT.isCanonical_iff hA hB fun i hi him => ?_).mp hcanonical⟩
  rw [← hT.columns]
  exact hrange _ (hB.mem_columns.mpr ⟨i, hi, him, rfl⟩)

/-! ## The search for an identity -/

/-- The search within a column is safe and finds the row of a unit vector, by induction on the rows that
are left. -/
theorem safe_unitRowFrom (hA : A.holds 1 = true) (hT : T.Stores A m n E) {c : ℕ} (hc : c ≤ n)
    (row count : ℕ) (found : Option ℕ) (hrow : 1 ≤ row) (hcount : row + count = m + 1)
    (hfound : UnitBelow E.pattern c row found) :
    Safe A (T.unitRowFrom A c row count found) fun result =>
      ∀ r, result = some r → UnitBelow E.pattern c (m + 1) (some r) := by
  induction count generalizing row found with
  | zero =>
      rintro r rfl
      rwa [← hcount]
  | succ count ih =>
      have hproper := hT.proper row (by omega) c hc
      unfold Tableau.unitRowFrom
      rw [hT.get row (by omega) c hc]
      refine safe_ok_bind ?_
      by_cases hzero : (E row c).isZero = true
      · rw [if_pos hzero]
        have hcell := Cells.pattern_eq_zero_iff.mpr (hproper.isZero_iff.mp hzero)
        exact ih (row + 1) found (by omega) (by omega) (hfound.skip hcell)
      · rw [if_neg hzero, isOne_eq hA hproper]
        refine safe_ok_bind ?_
        split
        · next hone =>
            rw [Bool.and_eq_true, decide_eq_true_eq, Option.isNone_iff_eq_none] at hone
            rcases hone with ⟨hone, rfl⟩
            have hcell := Cells.pattern_eq_one_iff.mpr hone
            exact ih (row + 1) (some row) (by omega) (by omega) (hfound.one hrow hcell)
        · exact safe_pure fun r hr => by cases hr

/-- Every claim is that of a unit vector, by induction on the columns that are left. -/
theorem safe_claimRows (hA : A.holds 1 = true) (hT : T.Stores A m n E) (column count : ℕ)
    (slots : List (Option ℕ)) (hcolumn : 1 ≤ column) (hcount : column + count ≤ n + 1)
    (hslots : Claimed E.pattern m n slots) :
    Safe A (T.claimRows A column count slots) (Claimed E.pattern m n) := by
  induction count generalizing column slots with
  | zero => exact hslots
  | succ count ih =>
      have hcn : column ≤ n := by omega
      have hnext := fun slots => ih (column + 1) slots (by omega) (by omega)
      have hproper := hT.proper 0 (Nat.zero_le m) column hcn
      unfold Tableau.claimRows
      rw [hT.reducedCost hcn]
      refine safe_ok_bind ?_
      by_cases hzero : (E 0 column).isZero = true
      · have hcost := Cells.pattern_eq_zero_iff.mpr (hproper.isZero_iff.mp hzero)
        rw [if_pos hzero]
        unfold Tableau.unitRow
        rw [hT.constraints]
        refine (hT.safe_unitRowFrom hA hcn 1 m none (Nat.le_refl 1) (by omega)
          fun i hi hlt => by omega).bind fun found hfound => ?_
        cases found with
        | none => exact hnext slots hslots
        | some r =>
            rcases hfound r rfl with ⟨hr, -, hunit⟩
            refine hnext _ (hslots.claim hr hcolumn hcn fun i him => ?_)
            rcases Nat.eq_zero_or_pos i with rfl | hi
            · rw [hcost, if_neg (by omega)]
            · exact hunit i hi (by omega)
      · rw [if_neg hzero]
        exact hnext slots hslots

/-- An identity that is found is canonical. -/
theorem safe_startingBasis (hA : A.holds 1 = true) (hT : T.Stores A m n E) :
    Safe A (T.startingBasis A) fun found => ∀ B, found = some B →
      B.Represents m B.basic ∧ E.Canonical m n B.basic := by
  unfold Tableau.startingBasis
  rw [hT.columns, hT.constraints]
  have hempty : Claimed E.pattern m n (List.replicate m none) := by
    refine ⟨List.length_replicate, fun k c hk => ?_⟩
    rw [List.getElem?_replicate] at hk
    split at hk <;> cases hk
  refine (hT.safe_claimRows hA 1 n _ (Nat.le_refl 1) (by omega) hempty).bind fun slots hslots => ?_
  refine safe_pure fun B hB => ?_
  rcases Option.map_eq_some_iff.mp hB with ⟨columns, hcolumns, rfl⟩
  have hsize : (Basis.mk columns).size = m := by
    rw [← hslots.length]
    exact allClaimed_length hcolumns
  have hrep : (Basis.mk columns).Represents m (Basis.mk columns).basic := ⟨hsize, rfl⟩
  have hunit : ∀ i, 1 ≤ i → i ≤ m → 1 ≤ (Basis.mk columns).basic i ∧ (Basis.mk columns).basic i ≤ n ∧
      ∀ k ≤ m, E.pattern k ((Basis.mk columns).basic i) = if k = i then 1 else 0 := by
    intro i hi him
    rcases Nat.exists_eq_add_of_le' hi with ⟨i, rfl⟩
    exact hslots.unit i _ (getElem?_of_allClaimed hcolumns (hrep.columns_getElem? (by omega)))
  exact ⟨hrep, fun i hi him => (hunit i hi him).1, fun i hi him => (hunit i hi him).2.1,
    fun i hi him k hk => Cells.pattern_eq_unit_iff.mp ((hunit i hi him).2.2 k hk)⟩

end Stores
end Tableau
end ExactSimplex
