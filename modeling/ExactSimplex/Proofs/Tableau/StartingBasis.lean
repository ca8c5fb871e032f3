import ExactSimplex.Proofs.Tableau.Canonical

/-!
# The search for an identity

A row is claimed only by a column that is its unit vector, the objective row included.  When all rows
are claimed, the columns that claimed them are a canonical basis.

Main results:

- Theorem {lit}`Tableau.Represents.claimRows`: every claim is that of a unit vector.
- Theorem {lit}`Tableau.Represents.startingBasis`: the basis that is found is canonical.
-/

namespace ExactSimplex

open Fraction

namespace Tableau

variable {T : Tableau} {m n : ℕ} {M : Values}

/-! ## Unit vectors -/

/-- Among the rows from one up to `stop`, exclusively, column `c` is zero, or it is the unit vector of the
row that was found. -/
def UnitBelow (M : Values) (c stop : ℕ) : Option ℕ → Prop
  | none => ∀ i, 1 ≤ i → i < stop → M i c = 0
  | some r => 1 ≤ r ∧ r < stop ∧ ∀ i, 1 ≤ i → i < stop → M i c = if i = r then 1 else 0

/-- A zero entry changes nothing. -/
theorem UnitBelow.skip {c stop : ℕ} {found : Option ℕ} (h : UnitBelow M c stop found)
    (hzero : M stop c = 0) : UnitBelow M c (stop + 1) found := by
  cases found with
  | none =>
      intro i hi hlt
      rcases Nat.lt_succ_iff_lt_or_eq.mp hlt with hlt | rfl
      · exact h i hi hlt
      · exact hzero
  | some r =>
      rcases h with ⟨hr, hrstop, hunit⟩
      refine ⟨hr, by omega, fun i hi hlt => ?_⟩
      rcases Nat.lt_succ_iff_lt_or_eq.mp hlt with hlt | rfl
      · exact hunit i hi hlt
      · rw [hzero, if_neg (by omega)]

/-- The first entry that is one gives the row. -/
theorem UnitBelow.one {c stop : ℕ} (h : UnitBelow M c stop none) (hstop : 1 ≤ stop)
    (hone : M stop c = 1) : UnitBelow M c (stop + 1) (some stop) := by
  refine ⟨hstop, Nat.lt_succ_self stop, fun i hi hlt => ?_⟩
  rcases Nat.lt_succ_iff_lt_or_eq.mp hlt with hlt | rfl
  · rw [h i hi hlt, if_neg (by omega)]
  · rw [hone, if_pos rfl]

/-- The search within a column finds the row of a unit vector, by induction on the rows that are left. -/
theorem Represents.unitRowFrom (hT : T.Represents m n M) {c : ℕ} (hc : c ≤ n) (row count : ℕ)
    (found : Option ℕ) (hrow : 1 ≤ row) (hcount : row + count = m + 1)
    (hfound : UnitBelow M c row found) {r : ℕ}
    (h : unitRowFrom .exact T c row count found = .ok (some r)) : UnitBelow M c (m + 1) (some r) := by
  induction count generalizing row found with
  | zero =>
      obtain rfl := Calc.pure_eq_ok.mp h
      rwa [← hcount]
  | succ count ih =>
      unfold Tableau.unitRowFrom at h
      simp only [hT.get (by omega : row ≤ m) hc, isZero_ofRat, isOne_ofRat, bind, Except.bind] at h
      by_cases hzero : M row c = 0
      · simp only [hzero, decide_true, if_true] at h
        exact ih (row + 1) found (by omega) (by omega) (hfound.skip hzero) h
      · simp only [hzero, decide_false, Bool.false_eq_true, if_false] at h
        split at h
        · next hone =>
            rw [Bool.and_eq_true, decide_eq_true_eq, Option.isNone_iff_eq_none] at hone
            rcases hone with ⟨hone, rfl⟩
            exact ih (row + 1) (some row) (by omega) (by omega) (hfound.one hrow hone) h
        · cases Calc.pure_eq_ok.mp h

/-! ## Claims -/

/-- Every claimed row has a column that is its unit vector. -/
structure Claimed (M : Values) (m n : ℕ) (slots : List (Option ℕ)) : Prop where
  length : slots.length = m
  unit : ∀ k c, slots[k]? = some (some c) →
    1 ≤ c ∧ c ≤ n ∧ ∀ i ≤ m, M i c = if i = k + 1 then 1 else 0

/-- The unit vector of a row may claim it. -/
theorem Claimed.claim {slots : List (Option ℕ)} (h : Claimed M m n slots) {r c : ℕ} (hr : 1 ≤ r)
    (hc : 1 ≤ c) (hcn : c ≤ n) (hunit : ∀ i ≤ m, M i c = if i = r then 1 else 0) :
    Claimed M m n (Tableau.claim slots r c) := by
  refine ⟨by rw [length_claim, h.length], fun k d hk => ?_⟩
  unfold Tableau.claim at hk
  split at hk
  · by_cases hkr : r - 1 = k
    · have hr' : r = k + 1 := by omega
      rw [List.getElem?_set, if_pos hkr] at hk
      split at hk
      · obtain rfl : c = d := by simpa using hk
        exact ⟨hc, hcn, hr' ▸ hunit⟩
      · cases hk
    · rw [List.getElem?_set_ne hkr] at hk
      exact h.unit k d hk
  · exact h.unit k d hk

/-- Every claim is that of a unit vector, by induction on the columns that are left. -/
theorem Represents.claimRows (hT : T.Represents m n M) (column count : ℕ)
    (slots : List (Option ℕ)) (hcolumn : 1 ≤ column) (hcount : column + count ≤ n + 1)
    (hslots : Claimed M m n slots) {slots' : List (Option ℕ)}
    (h : claimRows .exact T column count slots = .ok slots') : Claimed M m n slots' := by
  induction count generalizing column slots with
  | zero =>
      obtain rfl := Calc.pure_eq_ok.mp h
      exact hslots
  | succ count ih =>
      have hnext := fun slots => ih (column + 1) slots (by omega) (by omega)
      have hcn : column ≤ n := by omega
      unfold Tableau.claimRows at h
      rw [hT.reducedCost hcn] at h
      rcases Calc.bind_eq_ok.mp h with ⟨cost, hcost, h⟩
      obtain rfl := Except.ok.inj hcost
      by_cases hzero : M 0 column = 0
      · simp only [isZero_ofRat, hzero, decide_true, if_true] at h
        rcases Calc.bind_eq_ok.mp h with ⟨found, hfound, h⟩
        cases found with
        | none => exact hnext slots hslots h
        | some r =>
            -- The search has looked at all constraint rows, and the reduced cost is zero.
            have hunit : UnitBelow M column (m + 1) (some r) := by
              unfold Tableau.unitRow at hfound
              rw [hT.constraints] at hfound
              exact hT.unitRowFrom hcn 1 m none le_rfl (by omega) (fun i hi hlt => by omega) hfound
            rcases hunit with ⟨hr, -, hunit⟩
            refine hnext _ (hslots.claim hr hcolumn hcn fun i him => ?_) h
            rcases Nat.eq_zero_or_pos i with rfl | hi
            · rw [hzero, if_neg (by omega)]
            · exact hunit i hi (by omega)
      · simp only [isZero_ofRat, hzero, decide_false, Bool.false_eq_true, if_false] at h
        exact hnext slots hslots h

/-- If all rows are claimed, the list has their columns. -/
theorem getElem?_of_allClaimed {slots : List (Option ℕ)} {columns : List ℕ}
    (h : allClaimed slots = some columns) {k c : ℕ} (hc : columns[k]? = some c) :
    slots[k]? = some (some c) := by
  induction slots generalizing columns k with
  | nil =>
      cases h
      simp at hc
  | cons slot rest ih =>
      cases slot with
      | none => cases h
      | some column =>
          rcases Option.map_eq_some_iff.mp h with ⟨tail, htail, rfl⟩
          cases k with
          | zero => simpa using hc
          | succ k => exact ih htail (by simpa using hc)

/-- The basis that is found is canonical, and it consists of variables. -/
theorem Represents.startingBasis (hT : T.Represents m n M) {found : Basis}
    (h : T.startingBasis .exact = .ok (some found)) :
    found.Represents m found.basic ∧ M.Canonical m n found.basic ∧
      ∀ i, 1 ≤ i → i ≤ m → 1 ≤ found.basic i := by
  rcases Calc.bind_eq_ok.mp h with ⟨slots, hslots, h⟩
  rcases Option.map_eq_some_iff.mp (Calc.pure_eq_ok.mp h) with ⟨columns, hcolumns, hfound⟩
  subst hfound
  have hempty : Claimed M m n (List.replicate T.constraints none) := by
    refine ⟨by rw [List.length_replicate, hT.constraints], fun k c hk => ?_⟩
    rw [List.getElem?_replicate] at hk
    split at hk <;> cases hk
  have hclaimed : Claimed M m n slots := by
    rw [hT.columns] at hslots
    exact hT.claimRows 1 n _ le_rfl (by omega) hempty hslots
  have hsize : (Basis.mk columns).size = m := by
    rw [← hclaimed.length]
    exact allClaimed_length hcolumns
  have hB : (Basis.mk columns).Represents m (Basis.mk columns).basic := ⟨hsize, rfl⟩
  have hunit : ∀ i, 1 ≤ i → i ≤ m → 1 ≤ (Basis.mk columns).basic i ∧ (Basis.mk columns).basic i ≤ n ∧
      ∀ k ≤ m, M k ((Basis.mk columns).basic i) = if k = i then 1 else 0 := by
    intro i hi him
    rcases Nat.exists_eq_add_of_le' hi with ⟨i, rfl⟩
    exact hclaimed.unit i _ (getElem?_of_allClaimed hcolumns (hB.columns_getElem? (by omega)))
  exact ⟨hB, ⟨fun i hi him => (hunit i hi him).2.1, fun i hi him => (hunit i hi him).2.2⟩,
    fun i hi him => (hunit i hi him).1⟩

end Tableau
end ExactSimplex
