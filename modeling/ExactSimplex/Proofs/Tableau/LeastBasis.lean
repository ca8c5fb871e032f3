import ExactSimplex.Proofs.Tableau.FirstUnits
import ExactSimplex.Proofs.Tableau.Identity

/-!
# The least basis that is accepted

The search for an identity and the test of a given basis look at a cell only to see whether it is zero or one.
So in any arithmetic the search finds on a tableau what it finds on its pattern of zeros and ones, and the test
accepts a basis exactly if every row has its unit vector there.  As the search takes the first unit vector of
every row, it finds the least of the bases that are accepted, and it finds none only if there is none.

Main results:

- Theorem {lit}`Tableau.Stores.startingBasis_eq`: the search sees the pattern alone.
- Theorem {lit}`Tableau.Stores.exists_startingBasis`: the search never fails, and what it finds.
- Theorem {lit}`Tableau.Stores.basisDefect_eq_none_iff`: which bases are accepted.
- Theorem {lit}`Tableau.Stores.exists_least_basis`: what is found is the least basis that is accepted.
-/

namespace ExactSimplex

open Calc Fraction

variable {A : Arithmetic} {T U : Tableau} {m n : ℕ} {E : Cells} {M : Values}

namespace Tableau

/-- The basis is accepted, and every basis that is accepted has the same or a later variable in each row. -/
structure LeastBasis (A : Arithmetic) (T : Tableau) (B : Basis) : Prop where
  accepted : T.basisDefect A B = .ok none
  le : ∀ C : Basis, T.basisDefect A C = .ok none → List.Forall₂ (· ≤ ·) B.columns C.columns

/-- The exact tableau holds the pattern of zeros and ones among the cells. -/
structure HoldsPattern (U : Tableau) (m n : ℕ) (E : Cells) (M : Values) : Prop where
  represents : U.Represents m n M
  pattern : ∀ i ≤ m, ∀ j ≤ n, M i j = E.pattern i j

/-- Every pattern is held by some exact tableau. -/
theorem exists_holdsPattern (m n : ℕ) (E : Cells) : ∃ U M, HoldsPattern U m n E M := by
  let M : Values := fun i j => if i ≤ m ∧ j ≤ n then E.pattern i j else 0
  have hcolumn : ∀ i j, n < j → M i j = 0 := fun i j hj => if_neg fun h => by omega
  have hrow : ∀ i j, m < i → M i j = 0 := fun i j hi => if_neg fun h => by omega
  exact ⟨_, M, represents_of_rows hcolumn hrow, fun i hi j hj => if_pos ⟨hi, hj⟩⟩

namespace Stores

/-! ## The search sees the pattern alone -/

section Pattern

variable (hA : A.holds 1 = true) (hT : T.Stores A m n E) (hU : HoldsPattern U m n E M)

include hA hT hU

omit hA in
/-- A cell and its place in the pattern are zero together. -/
theorem isZero_pattern {i j : ℕ} (hi : i ≤ m) (hj : j ≤ n) :
    (E i j).isZero = (ofRat (M i j)).isZero := by
  rw [Bool.eq_iff_iff, (hT.proper i hi j hj).isZero_iff, isZero_ofRat, decide_eq_true_eq,
    hU.pattern i hi j hj, Cells.pattern_eq_zero_iff]

/-- A cell and its place in the pattern are one together. -/
theorem isOne_pattern {i j : ℕ} (hi : i ≤ m) (hj : j ≤ n) :
    isOne A (E i j) = isOne .exact (ofRat (M i j)) := by
  rw [isOne_eq hA (hT.proper i hi j hj), isOne_ofRat, Except.ok.injEq, decide_eq_decide,
    hU.pattern i hi j hj, Cells.pattern_eq_one_iff]

/-- By induction on the rows that are left. -/
theorem unitRowFrom_eq {c : ℕ} (hc : c ≤ n) (row count : ℕ) (found : Option ℕ)
    (hcount : row + count = m + 1) :
    T.unitRowFrom A c row count found = U.unitRowFrom .exact c row count found := by
  induction count generalizing row found with
  | zero => rfl
  | succ count ih =>
      have hrow : row ≤ m := by omega
      have hnext := fun found => ih (row + 1) found (by omega)
      unfold Tableau.unitRowFrom
      rw [hT.get row hrow c hc, hU.represents.get hrow hc]
      simp only [bind, Except.bind, hT.isZero_pattern hU hrow hc, hT.isOne_pattern hA hU hrow hc, hnext]

/-- By induction on the columns that are left. -/
theorem claimRows_eq (column count : ℕ) (slots : List (Option ℕ)) (hcount : column + count = n + 1) :
    T.claimRows A column count slots = U.claimRows .exact column count slots := by
  induction count generalizing column slots with
  | zero => rfl
  | succ count ih =>
      have hcolumn : column ≤ n := by omega
      have hnext := fun slots => ih (column + 1) slots (by omega)
      have hunit : T.unitRow A column = U.unitRow .exact column := by
        unfold Tableau.unitRow
        rw [hT.constraints, hU.represents.constraints]
        exact hT.unitRowFrom_eq hA hU hcolumn 1 m none (Nat.add_comm 1 m)
      unfold Tableau.claimRows
      rw [hT.reducedCost hcolumn, hU.represents.reducedCost hcolumn, hunit]
      simp only [bind, Except.bind, hT.isZero_pattern hU (Nat.zero_le m) hcolumn, hnext]

/-- The search for an identity finds what it finds on the pattern of zeros and ones. -/
theorem startingBasis_eq : T.startingBasis A = U.startingBasis .exact := by
  unfold Tableau.startingBasis
  rw [hT.columns, hT.constraints, hU.represents.columns, hU.represents.constraints,
    hT.claimRows_eq hA hU 1 n _ (Nat.add_comm 1 n)]

end Pattern

variable (hA : A.holds 1 = true) (hT : T.Stores A m n E)

include hA hT

/-- The search for an identity never fails.  It finds the basis that gives every row the first of its unit
vectors, and nothing only if a row has none. -/
theorem exists_startingBasis : ∃ found, T.startingBasis A = .ok found ∧ ∀ B : Basis, found = some B ↔
    B.size = m ∧ ∀ i, 1 ≤ i → i ≤ m → FirstUnit E.pattern m (n + 1) i (B.basic i) := by
  rcases exists_holdsPattern m n E with ⟨U, M, hU⟩
  rcases hU.represents.exists_startingBasis with ⟨found, hfound, hiff⟩
  refine ⟨found, by rw [hT.startingBasis_eq hA hU, hfound], fun B => (hiff B).trans ?_⟩
  have hpattern : ∀ i ≤ m, ∀ j < n + 1, M i j = E.pattern i j :=
    fun i hi j hj => hU.pattern i hi j (Nat.le_of_lt_succ hj)
  constructor
  · rintro ⟨hsize, hfirst⟩
    exact ⟨hsize, fun i hi him => (hfirst i hi him).congr hpattern⟩
  · rintro ⟨hsize, hfirst⟩
    exact ⟨hsize, fun i hi him => (hfirst i hi him).congr fun k hk j hj => (hpattern k hk j hj).symm⟩

/-! ## The test of a given basis -/

/-- The test of a column of a stored tableau has an answer. -/
theorem exists_isUnitColumn {c : ℕ} (hc : c ≤ n) (u : ℕ) : ∃ passed, T.isUnitColumn A c u = .ok passed := by
  unfold Tableau.isUnitColumn
  rw [hT.constraints]
  exact ⟨_, allIndices_eq_all fun i _ hi => hT.isUnitEntry hA hc (by omega) u⟩

/-- By induction on the columns. -/
theorem exists_areUnitColumns (row : ℕ) {columns : List ℕ} (hcolumns : ∀ c ∈ columns, c ≤ n) :
    ∃ passed, T.areUnitColumns A row columns = .ok passed := by
  induction columns generalizing row with
  | nil => exact ⟨true, rfl⟩
  | cons c rest ih =>
      rw [List.forall_mem_cons] at hcolumns
      rcases hT.exists_isUnitColumn hA hcolumns.1 row with ⟨passed, hpassed⟩
      unfold Tableau.areUnitColumns
      rw [hpassed]
      cases passed with
      | true => exact ih (row + 1) hcolumns.2
      | false => exact ⟨false, rfl⟩

/-- The test of a given basis never fails. -/
theorem exists_basisDefect (B : Basis) : ∃ defect, T.basisDefect A B = .ok defect := by
  unfold Tableau.basisDefect
  by_cases hsize : B.size = T.constraints
  · rw [if_pos hsize]
    cases hdefect : entryDefect T.columns [] B.columns with
    | some defect => exact ⟨some defect, rfl⟩
    | none =>
        have hcolumns : ∀ c ∈ B.columns, c ≤ n := fun c hc =>
          hT.columns ▸ ((entryDefect_eq_none_iff.mp hdefect).1 c hc).1.2
        rcases hT.exists_areUnitColumns hA 1 hcolumns with ⟨passed, hpassed⟩
        unfold Tableau.isCanonical
        rw [if_pos hsize, hpassed]
        cases passed with
        | true => exact ⟨none, rfl⟩
        | false => exact ⟨some .notIdentity, rfl⟩
  · rw [if_neg hsize]
    exact ⟨_, rfl⟩

/-- A given basis is accepted exactly if it gives every row a variable that is its unit vector. -/
theorem basisDefect_eq_none_iff {B : Basis} : T.basisDefect A B = .ok none ↔
    B.Represents m B.basic ∧ E.Canonical m n B.basic := by
  refine ⟨fun h => (hT.safe_basisDefect hA).of_eq_ok h rfl, fun ⟨hB, hE⟩ => ?_⟩
  have hnodup : B.columns.Nodup :=
    hB.nodup_columns fun _ _ hi him hk hkm heq => hE.basic_injective hi him hk hkm heq
  have hrange : ∀ c ∈ B.columns, 1 ≤ c ∧ c ≤ n := by
    intro c hc
    rcases hB.mem_columns.mp hc with ⟨i, hi, him, rfl⟩
    exact ⟨hE.basic_pos i hi him, hE.basic_le i hi him⟩
  have hcanonical : T.isCanonical A B = .ok true :=
    (hT.isCanonical_iff hA hB fun i hi him => ⟨hE.basic_pos i hi him, hE.basic_le i hi him⟩).mpr hE
  rw [Tableau.basisDefect_eq_none_iff, hT.constraints, hT.columns]
  exact ⟨hB.size, hrange, hnodup, hcanonical⟩

/-! ## The search against the test -/

/-- The first unit vectors of all rows are the least basis. -/
theorem leastBasis_of_first {B : Basis} (hsize : B.size = m)
    (hfirst : ∀ i, 1 ≤ i → i ≤ m → FirstUnit E.pattern m (n + 1) i (B.basic i)) : T.LeastBasis A B := by
  have hB : B.Represents m B.basic := ⟨hsize, rfl⟩
  refine ⟨(hT.basisDefect_eq_none_iff hA).mpr ⟨hB, ?_, ?_, ?_⟩, fun C hC => ?_⟩
  · exact fun i hi him => (hfirst i hi him).pos
  · exact fun i hi him => Nat.le_of_lt_succ (hfirst i hi him).lt
  · exact fun i hi him k hk => Cells.pattern_eq_unit_iff.mp ((hfirst i hi him).unit k hk)
  · rcases (hT.basisDefect_eq_none_iff hA).mp hC with ⟨hC, hE⟩
    rw [List.forall₂_iff_get]
    refine ⟨hB.size.trans hC.size.symm, fun k hk hk' => ?_⟩
    have hkm : k + 1 ≤ m := hsize ▸ hk
    have hle : B.basic (k + 1) ≤ C.basic (k + 1) :=
      (hfirst (k + 1) (by omega) hkm).le_of_unit (hE.basic_pos (k + 1) (by omega) hkm) fun i hi =>
        Cells.pattern_eq_unit_iff.mpr (hE.unit (k + 1) (by omega) hkm i hi)
    simpa [Basis.basic, hk, hk'] using hle

/-- The search finds the least basis that is accepted; if it finds none, every basis has a defect. -/
theorem exists_least_basis : ∃ found, T.startingBasis A = .ok found ∧
    (∀ B, found = some B → T.LeastBasis A B) ∧
      (found = none → ∀ C, ∃ defect, T.basisDefect A C = .ok (some defect)) := by
  rcases hT.exists_startingBasis hA with ⟨found, hfound, hiff⟩
  refine ⟨found, hfound, fun B hB => ?_, fun hnone C => ?_⟩
  · rcases (hiff B).mp hB with ⟨hsize, hfirst⟩
    exact hT.leastBasis_of_first hA hsize hfirst
  · rcases hT.exists_basisDefect hA C with ⟨defect, hdefect⟩
    cases defect with
    | some defect => exact ⟨defect, hdefect⟩
    | none =>
        -- Every row has a unit vector, hence a first one, so the search would have found these.
        rcases (hT.basisDefect_eq_none_iff hA).mp hdefect with ⟨-, hE⟩
        have hunit : ∀ i, 1 ≤ i → i ≤ m → ∃ c, FirstUnit E.pattern m (n + 1) i c := fun i hi him =>
          FirstUnit.exists_of_unit (hE.basic_pos i hi him) (Nat.lt_succ_of_le (hE.basic_le i hi him))
            fun k hk => Cells.pattern_eq_unit_iff.mpr (hE.unit i hi him k hk)
        choose! first hfirst using hunit
        let B : Basis := ⟨(List.range m).map fun k => first (k + 1)⟩
        have hsize : B.size = m := by simp [B, Basis.size]
        have hB : found = some B := by
          refine (hiff B).mpr ⟨hsize, fun i hi him => ?_⟩
          rcases Nat.exists_eq_add_of_le' hi with ⟨k, rfl⟩
          have hk : k < m := him
          have hbasic : B.basic (k + 1) = first (k + 1) := by simp [B, Basis.basic, hk]
          rw [hbasic]
          exact hfirst (k + 1) hi him
        rw [hnone] at hB
        cases hB

end Stores
end Tableau
end ExactSimplex
