import ExactSimplex.Proofs.Simplex.Run
import ExactSimplex.Proofs.Simplex.Stages
import ExactSimplex.Proofs.Tableau.FirstUnits
import ExactSimplex.Proofs.Tableau.PartOf

/-!
# How far the data reach

Where the data of a tableau end too early, some columns are cut short.  The tests and the search for a basis
and the pivots of a method all go down a column to the last row before they let it into a basis.  So the columns
of a basis are never cut short, and what a larger tableau shows of them is stored.

Main results:

- Theorems {lit}`Tableau.reaches_of_isCanonical` and {lit}`Tableau.reaches_of_startingBasis`: the columns of a
  basis that was tested or found.
- Theorem {lit}`Tableau.reaches_of_pivot`: the column of a pivot.
- Theorem {lit}`Trajectory.reaches`: the columns of the basis in which a run ends.
- Theorem {lit}`Tableau.PartOf.isCanonical`: the test of a basis comes out as on the larger tableau.
-/

namespace ExactSimplex

open Calc

namespace Tableau

variable {A : Arithmetic} {T U : Tableau} {B : Basis} {c : ℕ}

/-- The data go down the column to the last row. -/
def Reaches (T : Tableau) (c : ℕ) : Prop :=
  T.constraints * T.width + c < T.entries.size

/-- Only stored entries are found. -/
theorem lt_of_get {i j : ℕ} {a : Fraction} (h : T.get i j = .ok a) : i * T.width + j < T.entries.size := by
  unfold get at h
  rw [fetch_eq_ok_iff] at h
  exact (Array.getElem?_eq_some_iff.mp h).1

/-- How far the data go depends on the sizes alone. -/
theorem Reaches.sameSizes (hc : T.Reaches c) (hU : SameSizes T U) : U.Reaches c := by
  unfold Reaches width at *
  rwa [hU.constraints, hU.columns, hU.size]

/-- A column that is not cut short is the same in every larger tableau. -/
theorem Reaches.get_eq (hc : T.Reaches c) (h : T.PartOf U) {i : ℕ} (hi : i ≤ T.constraints) :
    T.get i c = U.get i c := by
  have hplace : i * T.width + c < T.entries.size :=
    calc i * T.width + c ≤ T.constraints * T.width + c :=
          Nat.add_le_add_right (Nat.mul_le_mul_right _ hi) c
      _ < T.entries.size := hc
  have hstored := Array.getElem?_eq_getElem hplace
  unfold get
  rw [h.width, hstored, h.entries _ _ hstored]

/-! ## Tests -/

/-- A column that passes the test of a unit vector is not cut short. -/
theorem reaches_of_isUnitColumn {unit : ℕ} (h : isUnitColumn A T c unit = .ok true) : T.Reaches c := by
  have hlast := allIndices_eq_true_iff.mp h T.constraints (Nat.zero_le _) (by omega)
  rcases bind_eq_ok.mp hlast with ⟨entry, hentry, -⟩
  exact lt_of_get hentry

/-- Columns that pass the test are not cut short, by induction on the list of columns. -/
theorem reaches_of_areUnitColumns {row : ℕ} {columns : List ℕ}
    (h : areUnitColumns A T row columns = .ok true) : ∀ c ∈ columns, T.Reaches c := by
  induction columns generalizing row with
  | nil =>
      intro c hc
      cases hc
  | cons d rest ih =>
      rcases bind_eq_ok.mp h with ⟨passed, hpassed, h⟩
      cases passed with
      | false => cases pure_eq_ok.mp h
      | true => exact List.forall_mem_cons.mpr ⟨reaches_of_isUnitColumn hpassed, ih h⟩

/-- The columns of a canonical basis are not cut short. -/
theorem reaches_of_isCanonical (h : isCanonical A T B = .ok true) : ∀ c ∈ B.columns, T.Reaches c := by
  unfold isCanonical at h
  split at h
  · exact reaches_of_areUnitColumns h
  · cases pure_eq_ok.mp h

/-- Columns that are not cut short pass the test if they do on a larger tableau, by induction on the list. -/
theorem PartOf.areUnitColumns (h : T.PartOf U) {row : ℕ} {columns : List ℕ}
    (hreach : ∀ c ∈ columns, T.Reaches c) (hU : Tableau.areUnitColumns A U row columns = .ok true) :
    Tableau.areUnitColumns A T row columns = .ok true := by
  induction columns generalizing row with
  | nil => rfl
  | cons d rest ih =>
      rw [List.forall_mem_cons] at hreach
      rcases bind_eq_ok.mp hU with ⟨passed, hpassed, hU⟩
      cases passed with
      | false => cases pure_eq_ok.mp hU
      | true =>
          have hcolumn : Tableau.isUnitColumn A T d row = .ok true := by
            refine allIndices_eq_true_iff.mpr fun i hi hlt => ?_
            have hentry := allIndices_eq_true_iff.mp hpassed i hi (by rwa [h.constraints])
            unfold isUnitEntry at hentry ⊢
            rwa [hreach.1.get_eq h (by omega)]
          exact bind_eq_ok.mpr ⟨true, hcolumn, ih hreach.2 hU⟩

/-- A basis whose columns are not cut short passes the test if it does on a larger tableau. -/
theorem PartOf.isCanonical (h : T.PartOf U) (hreach : ∀ c ∈ B.columns, T.Reaches c)
    (hU : U.isCanonical A B = .ok true) : T.isCanonical A B = .ok true := by
  unfold Tableau.isCanonical at hU ⊢
  rw [h.constraints] at hU
  split at hU
  · rw [if_pos ‹_›]
    exact h.areUnitColumns hreach hU
  · cases pure_eq_ok.mp hU

/-! ## The search -/

/-- A search down a column that finds a row has gone to the last one, by induction on the rows that are
left. -/
theorem lt_of_unitRowFrom {row count : ℕ} {found : Option ℕ} {r : ℕ}
    (h : unitRowFrom A T c row (count + 1) found = .ok (some r)) :
    (row + count) * T.width + c < T.entries.size := by
  induction count generalizing row found with
  | zero =>
      rcases bind_eq_ok.mp h with ⟨entry, hentry, -⟩
      exact lt_of_get hentry
  | succ count ih =>
      have hnext : ∃ found', unitRowFrom A T c (row + 1) (count + 1) found' = .ok (some r) := by
        unfold unitRowFrom at h
        rcases bind_eq_ok.mp h with ⟨entry, -, h⟩
        split at h
        · exact ⟨found, h⟩
        · rcases bind_eq_ok.mp h with ⟨one, -, h⟩
          split at h
          · exact ⟨some row, h⟩
          · cases pure_eq_ok.mp h
      rcases hnext with ⟨found', hfound'⟩
      have hlt := ih hfound'
      rwa [show row + (count + 1) = row + 1 + count by omega]

/-- A column for which a row is found is not cut short. -/
theorem reaches_of_unitRow {r : ℕ} (h : unitRow A T c = .ok (some r)) : T.Reaches c := by
  unfold unitRow at h
  cases hcount : T.constraints with
  | zero =>
      rw [hcount] at h
      cases pure_eq_ok.mp h
  | succ count =>
      rw [hcount] at h
      have hlt := lt_of_unitRowFrom h
      unfold Reaches
      rwa [hcount, Nat.add_comm count 1]

/-- The claims are made by columns that are not cut short, by induction on the columns that are left. -/
theorem reaches_of_claimRows {column count : ℕ} {slots slots' : List (Option ℕ)}
    (h : claimRows A T column count slots = .ok slots') (hslots : ∀ c, some c ∈ slots → T.Reaches c) :
    ∀ c, some c ∈ slots' → T.Reaches c := by
  induction count generalizing column slots with
  | zero =>
      cases pure_eq_ok.mp h
      exact hslots
  | succ count ih =>
      rcases bind_eq_ok.mp h with ⟨cost, -, h⟩
      split at h
      · rcases bind_eq_ok.mp h with ⟨found, hfound, h⟩
        cases found with
        | none => exact ih h hslots
        | some row =>
            refine ih h fun c hc => ?_
            unfold claim at hc
            split at hc
            · rcases List.mem_or_eq_of_mem_set hc with hc | hc
              · exact hslots c hc
              · obtain rfl := Option.some.inj hc
                exact reaches_of_unitRow hfound
            · exact hslots c hc
      · exact ih h hslots

/-- The columns of a basis that is found are not cut short. -/
theorem reaches_of_startingBasis (h : startingBasis A T = .ok (some B)) :
    ∀ c ∈ B.columns, T.Reaches c := by
  rcases bind_eq_ok.mp h with ⟨slots, hslots, h⟩
  rcases Option.map_eq_some_iff.mp (pure_eq_ok.mp h) with ⟨columns, hcolumns, rfl⟩
  have hclaimed := reaches_of_claimRows hslots fun c hc => by
    have := List.eq_of_mem_replicate hc
    cases this
  rw [allClaimed_eq_some_iff.mp hcolumns] at hclaimed
  exact fun c hc => hclaimed c (List.mem_map_of_mem hc)

/-! ## Pivots -/

/-- The eliminations look at the column in every row of their range, by induction on the number of rows. -/
theorem lt_of_eliminateRows {h t i count : ℕ} {scaled : List Fraction}
    (hrun : eliminateRows A h t scaled i (count + 1) T = .ok U) :
    (i + count) * T.width + h < T.entries.size := by
  induction count generalizing i T with
  | zero =>
      rcases bind_eq_ok.mp hrun with ⟨V, hV, -⟩
      rcases bind_eq_ok.mp hV with ⟨factor, hfactor, -⟩
      exact lt_of_get hfactor
  | succ count ih =>
      rcases bind_eq_ok.mp hrun with ⟨V, hV, hrun⟩
      have hsizes := eliminateRow_sizes A hV
      have hlt := ih hrun
      rw [width, hsizes.columns, hsizes.size] at hlt
      rwa [show i + (count + 1) = i + 1 + count by omega]

/-- The column of a pivot is not cut short. -/
theorem reaches_of_pivot {h t : ℕ} (hrun : T.pivot A h t .all = .ok U) : T.Reaches h := by
  rcases bind_eq_ok.mp hrun with ⟨element, -, hrun⟩
  rcases bind_eq_ok.mp hrun with ⟨V, hV, hrun⟩
  rcases bind_eq_ok.mp hrun with ⟨scaled, -, hrun⟩
  have hsizes := scaleRow_sizes A hV
  have hlt := lt_of_eliminateRows hrun
  rwa [Nat.zero_add, width, hsizes.constraints, hsizes.columns, hsizes.size] at hlt

/-! ## Rows -/

/-- The artificial program needs whole rows, by induction on their number. -/
theorem size_le_of_artificialRows {row count : ℕ} {rows : List (List Fraction)}
    (h : artificialRows A T row (count + 1) = .ok rows) : (row + count + 1) * T.width ≤ T.entries.size := by
  induction count generalizing row rows with
  | zero =>
      rcases bind_eq_ok.mp h with ⟨value, -, h⟩
      rcases bind_eq_ok.mp h with ⟨entries, hentries, -⟩
      unfold Tableau.row at hentries
      split at hentries
      · assumption
      · cases hentries
  | succ count ih =>
      have hnext : ∃ rest, artificialRows A T (row + 1) (count + 1) = .ok rest := by
        unfold artificialRows at h
        rcases bind_eq_ok.mp h with ⟨value, -, h⟩
        rcases bind_eq_ok.mp h with ⟨entries, -, h⟩
        dsimp only at h
        split at h <;>
          · rcases bind_eq_ok.mp h with ⟨oriented, -, h⟩
            rcases bind_eq_ok.mp h with ⟨rest, hrest, -⟩
            exact ⟨rest, hrest⟩
      rcases hnext with ⟨rest, hrest⟩
      have hle := ih hrest
      rwa [show row + (count + 1) + 1 = row + 1 + count + 1 by omega]

/-- Phase one needs all constraint rows. -/
theorem size_le_of_phaseOne {budget : ℕ} {run : Run (Except SolveError Feasibility)}
    (h : T.phaseOne A budget B = .ok run) :
    T.constraints = 0 ∨ (T.constraints + 1) * T.width ≤ T.entries.size := by
  rcases phaseOne_parts h with ⟨_, _, _, _, hstart, -⟩
  rcases bind_eq_ok.mp hstart with ⟨rows, hrows, -⟩
  cases hcount : T.constraints with
  | zero => exact Or.inl rfl
  | succ count =>
      rw [hcount] at hrows
      have hle := size_le_of_artificialRows hrows
      right
      rwa [show count + 1 + 1 = 1 + count + 1 by omega]

end Tableau

/-! ## Runs -/

/-- Where no column of the basis is cut short, none is after a pivot. -/
theorem PivotStep.reaches {A : Arithmetic} {rule : Rule} {s s' : State} (hstep : PivotStep A rule s s')
    (hs : ∀ c ∈ s.2.columns, s.1.Reaches c) : ∀ c ∈ s'.2.columns, s'.1.Reaches c := by
  rcases s' with ⟨U, C⟩
  rcases hstep with ⟨column, row, leaving, element, -, htake⟩
  have hsizes := (takePivot_sizes A htake).1
  rcases takePivot_parts A htake with ⟨-, -, hU, hC⟩
  have hentered : ∀ c ∈ C.columns, s.1.Reaches c := by
    intro c hc
    unfold Basis.enter at hC
    split at hC
    · cases hC
    · cases hC
      rcases List.mem_or_eq_of_mem_set hc with hc | rfl
      · exact hs c hc
      · exact Tableau.reaches_of_pivot hU
  exact fun c hc => (hentered c hc).sameSizes hsizes

/-- Where no column of the basis is cut short, none is at the end of a run. -/
theorem Trajectory.reaches {A : Arithmetic} {rule : Rule} {s : State} {run : Run SimplexStatus}
    (h : Trajectory A rule s run) (hs : ∀ c ∈ s.2.columns, s.1.Reaches c) :
    ∀ c ∈ run.basis.columns, run.tableau.Reaches c :=
  h.forall_of_step (p := fun s => ∀ c ∈ s.2.columns, s.1.Reaches c)
    (fun _ _ hs hstep => hstep.reaches hs) hs _ (List.mem_of_getLast? h.finish)

end ExactSimplex
