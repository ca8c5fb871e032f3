import ExactSimplex.Proofs.Tableau.StartingBasis

/-!
# The basis that the search finds

In exact arithmetic the search for an identity never fails, and what it finds is described by the numbers
alone: every row gets the first column that is its unit vector, the objective row included.  It finds nothing
only if some row has no such column.

Main results:

- Theorem {lit}`Tableau.Represents.exists_unitRow`: the search within a column decides which unit vector it is.
- Theorem {lit}`Tableau.Represents.exists_claimRows`: the claims are those of the first unit vectors.
- Theorem {lit}`Tableau.Represents.exists_startingBasis`: the basis that is found.
-/

namespace ExactSimplex

open Fraction

/-- Column `c` is the first of the columns from one up to `stop`, exclusively, that is the unit vector of row
`r`. -/
structure FirstUnit (M : Values) (m stop r c : ℕ) : Prop where
  pos : 1 ≤ c
  lt : c < stop
  unit : ∀ i ≤ m, M i c = if i = r then 1 else 0
  first : ∀ d, 1 ≤ d → d < c → ¬∀ i ≤ m, M i d = if i = r then 1 else 0

variable {M : Values} {m n : ℕ}

namespace FirstUnit

variable {stop r c : ℕ}

/-- No unit vector of the row comes before the first one. -/
theorem le_of_unit (h : FirstUnit M m stop r c) {d : ℕ} (hd : 1 ≤ d)
    (hunit : ∀ i ≤ m, M i d = if i = r then 1 else 0) : c ≤ d :=
  Nat.not_lt.mp fun hlt => h.first d hd hlt hunit

/-- Which column is the first unit vector of a row depends on the columns up to it. -/
theorem congr {N : Values} (h : FirstUnit M m stop r c) (hMN : ∀ i ≤ m, ∀ j < stop, M i j = N i j) :
    FirstUnit N m stop r c where
  pos := h.pos
  lt := h.lt
  unit := fun i hi => (hMN i hi c h.lt).symm.trans (h.unit i hi)
  first := fun d hd hdc hunit => h.first d hd hdc fun i hi =>
    (hMN i hi d (hdc.trans h.lt)).trans (hunit i hi)

/-- A further column that is no unit vector of the row changes nothing. -/
theorem succ_iff (hstop : ¬∀ i ≤ m, M i stop = if i = r then 1 else 0) :
    FirstUnit M m (stop + 1) r c ↔ FirstUnit M m stop r c := by
  constructor
  · intro h
    have hne : c ≠ stop := by
      rintro rfl
      exact hstop h.unit
    have := h.lt
    exact ⟨h.pos, by omega, h.unit, h.first⟩
  · intro h
    exact ⟨h.pos, Nat.lt_succ_of_lt h.lt, h.unit, h.first⟩

/-- Where some column is a unit vector of the row, there is a first one. -/
theorem exists_of_unit (hpos : 1 ≤ c) (hlt : c < stop) (hunit : ∀ i ≤ m, M i c = if i = r then 1 else 0) :
    ∃ d, FirstUnit M m stop r d := by
  classical
  have hexists : ∃ d, 1 ≤ d ∧ ∀ i ≤ m, M i d = if i = r then 1 else 0 := ⟨c, hpos, hunit⟩
  have hfound := Nat.find_spec hexists
  have hle : Nat.find hexists ≤ c := Nat.find_min' hexists ⟨hpos, hunit⟩
  exact ⟨Nat.find hexists, hfound.1, by omega, hfound.2,
    fun e he hlt hunit' => Nat.find_min hexists hlt ⟨he, hunit'⟩⟩

/-- A further unit vector of the row comes after those before it. -/
theorem succ_iff_of_unit (hpos : 1 ≤ stop) (hstop : ∀ i ≤ m, M i stop = if i = r then 1 else 0) :
    FirstUnit M m (stop + 1) r c ↔
      FirstUnit M m stop r c ∨ (c = stop ∧ ∀ d, ¬FirstUnit M m stop r d) := by
  constructor
  · intro h
    rcases Nat.lt_succ_iff_lt_or_eq.mp h.lt with hlt | rfl
    · exact Or.inl ⟨h.pos, hlt, h.unit, h.first⟩
    · exact Or.inr ⟨rfl, fun d hd => h.first d hd.pos hd.lt hd.unit⟩
  · rintro (h | ⟨rfl, hnone⟩)
    · exact ⟨h.pos, Nat.lt_succ_of_lt h.lt, h.unit, h.first⟩
    · refine ⟨hpos, Nat.lt_succ_self c, hstop, fun d hd hdc hunit => ?_⟩
      rcases exists_of_unit hd hdc hunit with ⟨e, he⟩
      exact hnone e he

end FirstUnit

namespace Tableau

variable {T : Tableau}

/-! ## Unit vectors -/

/-- On a well formed tableau the search for the row of a column has an answer. -/
theorem Represents.exists_unitRowFrom (hT : T.Represents m n M) {c : ℕ} (hc : c ≤ n) (row count : ℕ)
    (found : Option ℕ) (hcount : row + count = m + 1) :
    ∃ found', Tableau.unitRowFrom .exact T c row count found = .ok found' := by
  induction count generalizing row found with
  | zero => exact ⟨found, rfl⟩
  | succ count ih =>
      unfold Tableau.unitRowFrom
      simp only [hT.get (by omega : row ≤ m) hc, isZero_ofRat, isOne_ofRat, bind, Except.bind]
      split
      · exact ih (row + 1) found (by omega)
      · split
        · exact ih (row + 1) (some row) (by omega)
        · exact ⟨none, rfl⟩

/-- The search within the unit vector of a row comes out at that row, by induction on the rows that are
left. -/
theorem Represents.unitRowFrom_of_unit (hT : T.Represents m n M) {c r : ℕ} (hc : c ≤ n) (row count : ℕ)
    (hrow : 1 ≤ row) (hcount : row + count = m + 1)
    (hunit : ∀ i, 1 ≤ i → i ≤ m → M i c = if i = r then 1 else 0) (hr : r ≤ m) :
    Tableau.unitRowFrom .exact T c row count (if r < row then some r else none) = .ok (some r) := by
  induction count generalizing row with
  | zero =>
      rw [if_pos (by omega)]
      rfl
  | succ count ih =>
      have hnext := ih (row + 1) (by omega) (by omega)
      unfold Tableau.unitRowFrom
      simp only [hT.get (by omega : row ≤ m) hc, isZero_ofRat, isOne_ofRat, bind, Except.bind,
        hunit row hrow (by omega)]
      by_cases hrr : row = r
      · rw [if_pos (by omega)] at hnext
        subst hrr
        simpa using hnext
      · have hsame : (if r < row then some r else none) = if r < row + 1 then some r else none := by
          split <;> split <;> first | rfl | omega
        rw [hsame]
        simpa [hrr] using hnext

/-- The search within a column never fails, and it decides of which row the column is the unit vector. -/
theorem Represents.exists_unitRow (hT : T.Represents m n M) {c : ℕ} (hc : c ≤ n) :
    ∃ found, T.unitRow .exact c = .ok found ∧ ∀ r, found = some r ↔
      1 ≤ r ∧ r ≤ m ∧ ∀ i, 1 ≤ i → i ≤ m → M i c = if i = r then 1 else 0 := by
  unfold Tableau.unitRow
  rw [hT.constraints]
  rcases hT.exists_unitRowFrom hc 1 m none (by omega) with ⟨found, hfound⟩
  refine ⟨found, hfound, fun r => ⟨?_, ?_⟩⟩
  · rintro rfl
    rcases hT.unitRowFrom hc 1 m none le_rfl (by omega) (fun i hi hlt => by omega) hfound with
      ⟨hr, hrm, hunit⟩
    exact ⟨hr, by omega, fun i hi him => hunit i hi (by omega)⟩
  · rintro ⟨hr, hrm, hunit⟩
    have hrow := hT.unitRowFrom_of_unit hc 1 m le_rfl (by omega) hunit hrm
    rw [if_neg (by omega), hfound] at hrow
    exact Except.ok.inj hrow

/-! ## Claims -/

/-- Every row is claimed by the first of its unit vectors below `stop`, if there is one. -/
structure Searched (M : Values) (m stop : ℕ) (slots : List (Option ℕ)) : Prop where
  length : slots.length = m
  claimed : ∀ k < m, ∀ c, slots[k]? = some (some c) ↔ FirstUnit M m stop (k + 1) c

namespace Searched

variable {stop : ℕ} {slots : List (Option ℕ)}

/-- Before the search no row is claimed. -/
theorem start : Searched M m 1 (List.replicate m none) := by
  refine ⟨List.length_replicate, fun k hk c => ?_⟩
  rw [List.getElem?_replicate, if_pos hk]
  constructor
  · intro h
    cases h
  · intro h
    have := h.pos
    have := h.lt
    omega

/-- A column that is no unit vector claims nothing. -/
theorem skip (h : Searched M m stop slots)
    (hstop : ∀ r, 1 ≤ r → r ≤ m → ¬∀ i ≤ m, M i stop = if i = r then 1 else 0) :
    Searched M m (stop + 1) slots := by
  refine ⟨h.length, fun k hk c => ?_⟩
  rw [FirstUnit.succ_iff (hstop (k + 1) (by omega) (by omega))]
  exact h.claimed k hk c

/-- The unit vector of a row claims it, unless another one has done so. -/
theorem claim (h : Searched M m stop slots) (hpos : 1 ≤ stop) {r : ℕ} (hr : 1 ≤ r) (hrm : r ≤ m)
    (hunit : ∀ i ≤ m, M i stop = if i = r then 1 else 0) :
    Searched M m (stop + 1) (Tableau.claim slots r stop) := by
  refine ⟨by rw [length_claim, h.length], fun k hk c => ?_⟩
  have hlength := h.length
  by_cases hkr : k + 1 = r
  · subst hkr
    rw [FirstUnit.succ_iff_of_unit hpos hunit]
    unfold Tableau.claim
    rw [Nat.add_sub_cancel]
    -- A free row is claimed by this column; a claimed one keeps its earlier column.
    rcases hslot : slots[k]? with _ | _ | d
    · rw [List.getElem?_eq_none_iff] at hslot
      omega
    · have hnone : ∀ d, ¬FirstUnit M m stop (k + 1) d := by
        intro d hd
        have hd := (h.claimed k hk d).mpr hd
        rw [hslot] at hd
        cases hd
      have hlt : k < slots.length := by omega
      simp only [List.getElem?_set_self hlt, Option.some.injEq]
      constructor
      · rintro rfl
        exact Or.inr ⟨rfl, hnone⟩
      · rintro (hfirst | ⟨rfl, -⟩)
        · exact absurd hfirst (hnone c)
        · rfl
    · have hfirst := (h.claimed k hk d).mp hslot
      dsimp only
      rw [h.claimed k hk c]
      constructor
      · exact Or.inl
      · rintro (hfirst' | ⟨-, hnone⟩)
        · exact hfirst'
        · exact absurd hfirst (hnone d)
  -- The column is the unit vector of one row only.
  · have hnot : ¬∀ i ≤ m, M i stop = if i = k + 1 then 1 else 0 := by
      intro hunit'
      have hone := hunit r hrm
      rw [hunit' r hrm, if_pos rfl, if_neg (Ne.symm hkr)] at hone
      exact zero_ne_one hone
    have hkeep : (Tableau.claim slots r stop)[k]? = slots[k]? := by
      unfold Tableau.claim
      split
      · exact List.getElem?_set_ne (by omega)
      · rfl
    rw [hkeep, FirstUnit.succ_iff hnot]
    exact h.claimed k hk c

end Searched

/-- The claims never fail and are those of the first unit vectors, by induction on the columns that are
left. -/
theorem Represents.exists_claimRows (hT : T.Represents m n M) (column count : ℕ)
    (slots : List (Option ℕ)) (hcolumn : 1 ≤ column) (hcount : column + count = n + 1)
    (hslots : Searched M m column slots) :
    ∃ slots', Tableau.claimRows .exact T column count slots = .ok slots' ∧ Searched M m (n + 1) slots' := by
  induction count generalizing column slots with
  | zero =>
      refine ⟨slots, rfl, ?_⟩
      rwa [← hcount]
  | succ count ih =>
      have hnext := fun slots => ih (column + 1) slots (by omega) (by omega)
      have hcn : column ≤ n := by omega
      unfold Tableau.claimRows
      simp only [hT.reducedCost hcn, isZero_ofRat, bind, Except.bind]
      by_cases hzero : M 0 column = 0
      · rcases hT.exists_unitRow hcn with ⟨found, hfound, hiff⟩
        simp only [hzero, decide_true, if_true, hfound]
        cases found with
        | none =>
            refine hnext slots (hslots.skip fun r hr hrm hunit => ?_)
            have := (hiff r).mpr ⟨hr, hrm, fun i _ him => hunit i him⟩
            cases this
        | some r =>
            rcases (hiff r).mp rfl with ⟨hr, hrm, hunit⟩
            refine hnext _ (hslots.claim hcolumn hr hrm fun i him => ?_)
            rcases Nat.eq_zero_or_pos i with rfl | hi
            · rw [hzero, if_neg (by omega)]
            · exact hunit i hi him
      · simp only [hzero, decide_false, Bool.false_eq_true, if_false]
        refine hnext slots (hslots.skip fun r hr hrm hunit => hzero ?_)
        rw [hunit 0 (Nat.zero_le m), if_neg (by omega)]

/-- All slots are claimed exactly if they list columns. -/
theorem allClaimed_eq_some_iff {slots : List (Option ℕ)} {columns : List ℕ} :
    allClaimed slots = some columns ↔ slots = columns.map some := by
  induction slots generalizing columns with
  | nil => cases columns <;> simp [allClaimed]
  | cons slot rest ih =>
      cases slot with
      | none => cases columns <;> simp [allClaimed]
      | some column =>
          cases columns with
          | nil => simp [allClaimed]
          | cons c columns =>
              simp only [allClaimed, Option.map_eq_some_iff, List.map_cons, List.cons.injEq,
                Option.some.injEq]
              constructor
              · rintro ⟨tail, htail, rfl, rfl⟩
                exact ⟨rfl, ih.mp htail⟩
              · rintro ⟨rfl, hrest⟩
                exact ⟨columns, ih.mpr hrest, rfl, rfl⟩

/-- The search for an identity never fails.  It finds the basis that gives every row the first of its unit
vectors, and nothing only if a row has none. -/
theorem Represents.exists_startingBasis (hT : T.Represents m n M) :
    ∃ found, T.startingBasis .exact = .ok found ∧ ∀ B : Basis, found = some B ↔
      B.size = m ∧ ∀ i, 1 ≤ i → i ≤ m → FirstUnit M m (n + 1) i (B.basic i) := by
  rcases hT.exists_claimRows 1 n _ le_rfl (by omega) .start with ⟨slots, hslots, hsearched⟩
  refine ⟨(allClaimed slots).map Basis.mk, ?_, fun B => ⟨fun hB => ?_, fun ⟨hsize, hfirst⟩ => ?_⟩⟩
  · unfold Tableau.startingBasis
    rw [hT.columns, hT.constraints, hslots]
    rfl
  · rcases Option.map_eq_some_iff.mp hB with ⟨columns, hcolumns, rfl⟩
    have hsize : (Basis.mk columns).size = m := by
      rw [← hsearched.length]
      exact allClaimed_length hcolumns
    refine ⟨hsize, fun i hi him => ?_⟩
    rcases Nat.exists_eq_add_of_le' hi with ⟨k, rfl⟩
    have hbasic := Basis.Represents.columns_getElem? ⟨hsize, rfl⟩ (show k < m by omega)
    exact (hsearched.claimed k (by omega) _).mp (getElem?_of_allClaimed hcolumns hbasic)
  · have hall : slots = B.columns.map some := by
      apply List.ext_getElem?
      intro k
      have hlength := hsearched.length
      have hcolumns : B.columns.length = m := hsize
      rcases Nat.lt_or_ge k m with hk | hk
      · have hbasic := Basis.Represents.columns_getElem? (B := B) ⟨hsize, rfl⟩ hk
        rw [List.getElem?_map, hbasic, Option.map_some,
          (hsearched.claimed k hk _).mpr (hfirst (k + 1) (by omega) (by omega))]
      · rw [List.getElem?_eq_none (by omega), List.getElem?_eq_none (by simpa [hcolumns] using hk)]
    rw [allClaimed_eq_some_iff.mpr hall]
    rfl

end Tableau
end ExactSimplex
