import ExactSimplex.Proofs.Calc
import ExactSimplex.Proofs.Program.Canonical
import ExactSimplex.Tableau.Canonical

/-!
# Bases of exact tableaux

A basis is viewed as the function that gives every constraint row its basic variable.  In exact
arithmetic the test for a canonical basis decides whether the basic columns are unit vectors, and the
basic solution lists the values of the basic point.

Main results:

- Theorem {lit}`Tableau.Represents.isCanonical_iff`: the test decides canonicity.
- Theorem {lit}`Tableau.Represents.basicSolution`: the basic solution of a canonical tableau.
-/

namespace ExactSimplex

open Finset Fraction

namespace Basis

/-- The basic variable of each row counted from one. -/
def basic (B : Basis) : ℕ → ℕ
  | 0 => 0
  | i + 1 => B.columns[i]?.getD 0

/-- The basis covers `m` rows and gives them the basic variables `β`. -/
structure Represents (B : Basis) (m : ℕ) (β : ℕ → ℕ) : Prop where
  size : B.size = m
  basic : B.basic = β

variable {B : Basis} {m : ℕ} {β : ℕ → ℕ}

/-- A basis has the basic variables that it lists. -/
theorem represents (B : Basis) : B.Represents B.size B.basic :=
  ⟨rfl, rfl⟩

/-- An entry of the list is the basic variable of the next row number. -/
theorem Represents.columns_getElem?_iff (hB : B.Represents m β) {k c : ℕ} :
    B.columns[k]? = some c ↔ k < m ∧ β (k + 1) = c := by
  have hlength : B.columns.length = m := hB.size
  rw [← hB.basic, List.getElem?_eq_some_iff, ← hlength]
  constructor
  · rintro ⟨hk, rfl⟩
    exact ⟨hk, by simp [Basis.basic, hk]⟩
  · rintro ⟨hk, rfl⟩
    exact ⟨hk, by simp [Basis.basic, hk]⟩

/-- The list has an entry for every row. -/
theorem Represents.columns_getElem? (hB : B.Represents m β) {k : ℕ} (hk : k < m) :
    B.columns[k]? = some (β (k + 1)) :=
  hB.columns_getElem?_iff.mpr ⟨hk, rfl⟩

/-- The basic variable of a row is found. -/
theorem Represents.inRow (hB : B.Represents m β) {i : ℕ} (hi : 1 ≤ i) (him : i ≤ m) :
    B.inRow i = .ok (β i) := by
  rcases Nat.exists_eq_add_of_le' hi with ⟨i, rfl⟩
  rw [inRow_succ, entry_eq_ok_iff]
  exact hB.columns_getElem? (by omega)

/-- Entering a column makes it the basic variable of its row. -/
theorem Represents.enter (hB : B.Represents m β) {t : ℕ} (ht : 1 ≤ t) (htm : t ≤ m) (h : ℕ) :
    ∃ C, B.enter t h = .ok C ∧ C.Represents m (Function.update β t h) := by
  rcases Nat.exists_eq_add_of_le' ht with ⟨t, rfl⟩
  have hsize := hB.size
  have hlt : t < B.columns.length := by
    unfold Basis.size at hsize
    omega
  refine ⟨_, enter_succ h hlt, ?_, ?_⟩
  · simpa [Basis.size] using hsize
  · funext i
    rw [← hB.basic]
    cases i with
    | zero => rw [Function.update_of_ne (by omega), Basis.basic, Basis.basic]
    | succ i =>
        by_cases hi : i = t
        · subst hi
          simp [Basis.basic, hlt]
        · rw [Function.update_of_ne (by omega), Basis.basic, Basis.basic,
            List.getElem?_set_ne (Ne.symm hi)]

/-- Covering one more row keeps the basic variables of the others. -/
theorem Represents.push (hB : B.Represents m β) (c : ℕ) :
    (B.push c).Represents (m + 1) (Function.update β (m + 1) c) := by
  have hlength : B.columns.length = m := hB.size
  refine ⟨by rw [size_push, hB.size], ?_⟩
  funext i
  rw [← hB.basic]
  cases i with
  | zero => rw [Function.update_of_ne (by omega), Basis.basic, Basis.basic]
  | succ i =>
      rcases Nat.lt_trichotomy i m with hi | rfl | hi
      · rw [Function.update_of_ne (by omega)]
        simp [Basis.basic, Basis.push, List.getElem?_append_left (hlength ▸ hi)]
      · simp [Basis.basic, Basis.push, ← hlength]
      · have hpush : (B.columns ++ [c])[i]? = none :=
          List.getElem?_eq_none (by rw [List.length_append, hlength]; exact hi)
        have hnone : B.columns[i]? = none := List.getElem?_eq_none (by omega)
        rw [Function.update_of_ne (by omega)]
        simp only [Basis.basic, Basis.push, hpush, hnone]

/-- The columns of a basis are the basic variables of its rows. -/
theorem Represents.mem_columns (hB : B.Represents m β) {c : ℕ} :
    c ∈ B.columns ↔ ∃ i, 1 ≤ i ∧ i ≤ m ∧ β i = c := by
  rw [List.mem_iff_getElem?]
  constructor
  · rintro ⟨k, hk⟩
    rcases hB.columns_getElem?_iff.mp hk with ⟨hkm, heq⟩
    exact ⟨k + 1, by omega, by omega, heq⟩
  · rintro ⟨i, hi, him, heq⟩
    rcases Nat.exists_eq_add_of_le' hi with ⟨k, rfl⟩
    exact ⟨k, hB.columns_getElem?_iff.mpr ⟨by omega, heq⟩⟩

/-- Rows with different basic variables make the columns pairwise different. -/
theorem Represents.nodup_columns (hB : B.Represents m β)
    (hinjective : ∀ i k, 1 ≤ i → i ≤ m → 1 ≤ k → k ≤ m → β i = β k → i = k) : B.columns.Nodup := by
  have hlength : B.columns.length = m := hB.size
  rw [List.nodup_iff_getElem?_ne_getElem?]
  intro i k hik hk heq
  rw [hlength] at hk
  rw [hB.columns_getElem? (by omega), hB.columns_getElem? hk, Option.some.injEq] at heq
  have := hinjective _ _ (by omega) (by omega) (by omega) (by omega) heq
  omega

end Basis

namespace Tableau

variable {T : Tableau} {m n : ℕ} {M : Values}

/-! ## The test for a canonical basis -/

/-- The test of an entry looks at its number. -/
theorem Represents.isUnitEntry (hT : T.Represents m n M) {c i : ℕ} (hc : c ≤ n) (hi : i ≤ m)
    (u : ℕ) : T.isUnitEntry .exact c u i = .ok (decide (M i c = if i = u then 1 else 0)) := by
  unfold Tableau.isUnitEntry
  rw [hT.get hi hc]
  by_cases hiu : i = u
  · simp [bind, Except.bind, hiu, isOne_ofRat]
  · simp [bind, Except.bind, hiu, pure, Except.pure]

/-- The test of a column looks at its numbers, and fails beyond the columns. -/
theorem Represents.isUnitColumn_iff (hT : T.Represents m n M) {c u : ℕ} :
    T.isUnitColumn .exact c u = .ok true ↔
      c ≤ n ∧ ∀ i ≤ m, M i c = if i = u then 1 else 0 := by
  unfold Tableau.isUnitColumn
  rw [allIndices_eq_true_iff, hT.constraints]
  constructor
  · intro h
    have hc : c ≤ n := by
      by_contra hc
      have hlast := h m (Nat.zero_le m) (by omega)
      have hmissing := get_last_row_of_columns_lt (T := T) hT.wellFormed.shaped
        (hT.columns ▸ Nat.not_le.mp hc)
      rw [hT.constraints] at hmissing
      rw [Tableau.isUnitEntry, hmissing] at hlast
      cases hlast
    refine ⟨hc, fun i hi => ?_⟩
    have hentry := h i (Nat.zero_le i) (by omega)
    rw [hT.isUnitEntry hc hi, Except.ok.injEq, decide_eq_true_eq] at hentry
    exact hentry
  · rintro ⟨hc, hunit⟩ i - hlt
    have hi : i ≤ m := by omega
    rw [hT.isUnitEntry hc hi, hunit i hi, decide_eq_true rfl]

/-- The test of several columns is that of each in its row. -/
theorem areUnitColumns_iff {A : Arithmetic} {row : ℕ} {columns : List ℕ} :
    T.areUnitColumns A row columns = .ok true ↔
      ∀ k c, columns[k]? = some c → T.isUnitColumn A c (row + k) = .ok true := by
  induction columns generalizing row with
  | nil =>
      simp [areUnitColumns, pure, Except.pure]
  | cons c columns ih =>
      rw [areUnitColumns, Calc.bind_eq_ok]
      constructor
      · rintro ⟨passed, hpassed, hrest⟩ k d hd
        cases passed with
        | false => cases hrest
        | true =>
            cases k with
            | zero =>
                obtain rfl : c = d := by simpa using hd
                exact hpassed
            | succ k =>
                have := ih.mp hrest k d (by simpa using hd)
                rwa [Nat.add_assoc, Nat.add_comm 1] at this
      · intro h
        refine ⟨true, h 0 c rfl, ih.mpr fun k d hd => ?_⟩
        have := h (k + 1) d (by simpa using hd)
        rwa [Nat.add_comm k, ← Nat.add_assoc] at this

/-- In exact arithmetic the test decides whether the basic columns are the unit vectors of their
rows. -/
theorem Represents.isCanonical_iff (hT : T.Represents m n M) {B : Basis} :
    T.isCanonical .exact B = .ok true ↔ B.Represents m B.basic ∧ M.Canonical m n B.basic := by
  unfold Tableau.isCanonical
  rw [hT.constraints]
  by_cases hsize : B.size = m
  · have hB : B.Represents m B.basic := ⟨hsize, rfl⟩
    rw [if_pos hsize, areUnitColumns_iff]
    constructor
    · intro h
      have hunit : ∀ i, 1 ≤ i → i ≤ m → B.basic i ≤ n ∧
          ∀ k ≤ m, M k (B.basic i) = if k = i then 1 else 0 := by
        intro i hi him
        rcases Nat.exists_eq_add_of_le' hi with ⟨i, rfl⟩
        have := hT.isUnitColumn_iff.mp (h i _ (hB.columns_getElem? (by omega)))
        rwa [Nat.add_comm 1 i] at this
      exact ⟨hB, fun i hi him => (hunit i hi him).1, fun i hi him => (hunit i hi him).2⟩
    · rintro ⟨-, hM⟩ k c hc
      rcases hB.columns_getElem?_iff.mp hc with ⟨hk, rfl⟩
      rw [hT.isUnitColumn_iff, Nat.add_comm 1 k]
      exact ⟨hM.basic_le _ (by omega) (by omega), hM.unit _ (by omega) (by omega)⟩
  · rw [if_neg hsize]
    constructor
    · intro h
      cases h
    · rintro ⟨hB, -⟩
      exact absurd hB.size hsize

/-! ## Basic solutions -/

/-- The stored values of the variables `1..n` of a point. -/
def storedPoint (n : ℕ) (x : ℕ → ℚ) : List Fraction :=
  (List.range n).map fun k => ofRat (x (k + 1))

@[simp]
theorem length_storedPoint (n : ℕ) (x : ℕ → ℚ) : (storedPoint n x).length = n := by
  simp [storedPoint]

/-- Setting one value changes the point at one variable. -/
theorem set_storedPoint {n c : ℕ} (x : ℕ → ℚ) (hc : 1 ≤ c) (q : ℚ) :
    (storedPoint n x).set (c - 1) (ofRat q) = storedPoint n (Function.update x c q) := by
  apply List.ext_getElem
  · simp
  · intro k hk hk'
    rcases Nat.exists_eq_add_of_le' hc with ⟨c, rfl⟩
    simp only [Nat.add_sub_cancel, List.getElem_set]
    by_cases hkc : c = k
    · subst hkc
      simp [storedPoint]
    · have hne : k + 1 ≠ c + 1 := by omega
      simp [storedPoint, hkc, Function.update_of_ne hne]

/-- The value of each variable in a list of values, zero for variables without one. -/
def pointOf (values : List Fraction) : ℕ → ℚ := fun j => (values[j - 1]?.getD Fraction.zero).toRat

/-- The first values of a stored point are those of the point. -/
theorem pointOf_take_storedPoint {n k j : ℕ} (x : ℕ → ℚ) (hkn : k ≤ n) (hj : 1 ≤ j) (hjk : j ≤ k) :
    pointOf ((storedPoint n x).take k) j = x j := by
  rcases Nat.exists_eq_add_of_le' hj with ⟨j, rfl⟩
  have hlt : j < k := by omega
  have hltn : j < n := by omega
  simp [pointOf, storedPoint, hlt, hltn]

/-- Placing the right-hand sides of the rows from `row` on at pairwise different columns, by induction
on the list of columns. -/
theorem Represents.placeBasic (hT : T.Represents m n M) (row : ℕ) (columns : List ℕ) (x : ℕ → ℚ)
    (hrows : row + columns.length ≤ m + 1) (hcolumns : ∀ c ∈ columns, 1 ≤ c ∧ c ≤ n)
    (hdistinct : columns.Nodup) :
    ∃ y, T.placeBasic row columns (storedPoint n x) = .ok (storedPoint n y) ∧
      (∀ c, c ∉ columns → y c = x c) ∧
        ∀ k c, columns[k]? = some c → y c = M (row + k) 0 := by
  induction columns generalizing row x with
  | nil => exact ⟨x, rfl, fun _ _ => rfl, by simp⟩
  | cons c columns ih =>
      rw [List.length_cons] at hrows
      rcases hcolumns c List.mem_cons_self with ⟨hc, hcn⟩
      rcases List.nodup_cons.mp hdistinct with ⟨hnotMem, hdistinct⟩
      obtain ⟨y, hy, hkeep, hplace⟩ := ih (row + 1) (Function.update x c (M row 0)) (by omega)
        (fun d hd => hcolumns d (List.mem_cons_of_mem c hd)) hdistinct
      refine ⟨y, ?_, ?_, ?_⟩
      · have hbound : ¬(c = 0 ∨ n < c) := by omega
        rw [Tableau.placeBasic, hT.rhs (by omega)]
        simp only [bind, Except.bind, length_storedPoint, hbound, if_false, set_storedPoint x hc]
        exact hy
      · intro d hd
        rw [List.mem_cons, not_or] at hd
        rw [hkeep d hd.2, Function.update_of_ne hd.1]
      · intro k d hd
        cases k with
        | zero =>
            obtain rfl : c = d := by simpa using hd
            rw [hkeep c hnotMem, Function.update_self, Nat.add_zero]
        | succ k =>
            rw [hplace k d (by simpa using hd), Nat.add_assoc, Nat.add_comm 1]

/-- The basic solution of a canonical tableau lists the values of its basic point. -/
theorem Represents.basicSolution (hT : T.Represents m n M) {B : Basis} {β : ℕ → ℕ}
    (hB : B.Represents m β) (hM : M.Canonical m n β) (hβ : ∀ i, 1 ≤ i → i ≤ m → 1 ≤ β i) :
    T.basicSolution B = .ok (storedPoint n (M.basicPoint m β)) := by
  have hcolumns : ∀ c ∈ B.columns, 1 ≤ c ∧ c ≤ n := by
    intro c hc
    rcases hB.mem_columns.mp hc with ⟨i, hi, him, rfl⟩
    exact ⟨hβ i hi him, hM.basic_le i hi him⟩
  have hdistinct : B.columns.Nodup :=
    hB.nodup_columns fun _ _ hi him hk hkm heq => hM.basic_injective hi him hk hkm heq
  have hlength : B.columns.length = m := hB.size
  obtain ⟨y, hy, hkeep, hplace⟩ := hT.placeBasic 1 B.columns (fun _ => 0)
    (by omega) hcolumns hdistinct
  have hpoint : y = M.basicPoint m β := by
    funext c
    by_cases hc : c ∈ B.columns
    · rcases List.mem_iff_getElem?.mp hc with ⟨k, hk⟩
      rcases hB.columns_getElem?_iff.mp hk with ⟨hkm, rfl⟩
      rw [hplace k _ hk, Values.basicPoint, hM.scatter_basic (by omega) (by omega), Nat.add_comm]
    · rw [hkeep c hc, Values.basicPoint, Values.scatter_of_not_mem]
      exact fun i hi him heq => hc (hB.mem_columns.mpr ⟨i, hi, him, heq⟩)
  have hzero : storedPoint n (fun _ => 0) = List.replicate n Fraction.zero := by
    simp [storedPoint, zero_eq_ofRat, List.map_const']
  unfold Tableau.basicSolution
  rw [hT.columns, ← hzero, hy, hpoint]

end Tableau
end ExactSimplex
