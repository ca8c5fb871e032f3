import ExactSimplex.Proofs.Program.Canonical
import ExactSimplex.Proofs.Tableau.Cut
import Mathlib.Algebra.Order.Floor.Ring

/-!
# Cuts keep integer points

A program tightens another one if its solutions solve the other one at the same cost, and every integer
solution of the other one extends to an integer solution of it.  A cut tightens a program, whatever row
it comes from: the slack that it forces on an integer solution is an integer above minus one.

Main results:

- Theorem {lit}`Values.exists_slack`: the slack of a cut at an integer solution.
- Theorem {lit}`Values.integerPoint_cut_iff`: a cut loses no integer solution, and the slack is determined.
- Theorem {lit}`Values.tightens_cut`: a cut tightens its program.
- Theorem {lit}`Values.Canonical.cut`: a cut keeps a tableau canonical.
-/

namespace ExactSimplex

open Finset

/-- The variables `1..n` of a point are nonnegative integers. -/
def IntegerPoint (n : ℕ) (x : ℕ → ℚ) : Prop :=
  ∀ j, 1 ≤ j → j ≤ n → 0 ≤ x j ∧ ∃ z : ℤ, x j = z

/-- An integer point is nonnegative. -/
theorem IntegerPoint.nonneg {n : ℕ} {x : ℕ → ℚ} (hx : IntegerPoint n x) : Nonneg n x :=
  fun j hj hjn => (hx j hj hjn).1

namespace Values

variable {M N K : Values} {m n m' n' m'' n'' r : ℕ} {β : ℕ → ℕ}

/-! ## Tightening -/

/-- The solutions of the program `N` solve the program `M` at the same cost, and the integer solutions
of `M` extend to integer solutions of `N`. -/
structure Tightens (M : Values) (m n : ℕ) (N : Values) (m' n' : ℕ) : Prop where
  columns_le : n ≤ n'
  satisfies : ∀ x, N.Satisfies m' n' x → M.Satisfies m n x
  cost : ∀ x, N.Satisfies m' n' x → M.cost n x = N.cost n' x
  extends_to : ∀ x, IntegerPoint n x → M.Satisfies m n x →
    ∃ y, (∀ j, 1 ≤ j → j ≤ n → y j = x j) ∧ IntegerPoint n' y ∧ N.Satisfies m' n' y

/-- A program that is tightened twice is tightened. -/
theorem Tightens.trans (h : M.Tightens m n N m' n') (h' : N.Tightens m' n' K m'' n'') :
    M.Tightens m n K m'' n'' where
  columns_le := h.columns_le.trans h'.columns_le
  satisfies x hx := h.satisfies x (h'.satisfies x hx)
  cost x hx := (h.cost x (h'.satisfies x hx)).trans (h'.cost x hx)
  extends_to := by
    intro x hint hx
    rcases h.extends_to x hint hx with ⟨y, hyx, hyint, hy⟩
    rcases h'.extends_to y hyint hy with ⟨z, hzy, hzint, hz⟩
    exact ⟨z, fun j hj hjn => (hzy j hj (hjn.trans h.columns_le)).trans (hyx j hj hjn), hzint, hz⟩

/-- An equivalent program is one that is tightened. -/
theorem Tightens.of_equivalent (h : Equivalent m n M N) : M.Tightens m n N m n where
  columns_le := le_rfl
  satisfies x hx := (h.satisfies_iff x).mpr hx
  cost x hx := h.cost_eq ((h.satisfies_iff x).mpr hx)
  extends_to x hint hx := ⟨x, fun _ _ _ => rfl, hint, (h.satisfies_iff x).mp hx⟩

/-! ## The slack of a cut -/

/-- The weighted fractional parts of a row at an integer solution exceed that of its right-hand side by a
nonnegative integer. -/
theorem exists_slack {x : ℕ → ℚ} (hint : IntegerPoint n x)
    (hrow : ∑ j ∈ Icc 1 n, M r j * x j = M r 0) :
    ∃ z : ℤ, 0 ≤ z ∧ ∑ j ∈ Icc 1 n, Int.fract (M r j) * x j - Int.fract (M r 0) = z := by
  -- The whole parts contribute an integer.
  obtain ⟨w, hw⟩ : ∃ w : ℤ, ∑ j ∈ Icc 1 n, (⌊M r j⌋ : ℚ) * x j = w := by
    have hterm : ∀ j ∈ Icc 1 n, (⌊M r j⌋ : ℚ) * x j = ((⌊M r j⌋ * ⌊x j⌋ : ℤ) : ℚ) := by
      intro j hj
      rcases (hint j (mem_Icc.mp hj).1 (mem_Icc.mp hj).2).2 with ⟨z, hz⟩
      rw [hz, Int.floor_intCast, Int.cast_mul]
    exact ⟨∑ j ∈ Icc 1 n, ⌊M r j⌋ * ⌊x j⌋, by rw [sum_congr rfl hterm, Int.cast_sum]⟩
  have hsplit : ∑ j ∈ Icc 1 n, Int.fract (M r j) * x j =
      ∑ j ∈ Icc 1 n, M r j * x j - ∑ j ∈ Icc 1 n, (⌊M r j⌋ : ℚ) * x j := by
    rw [← sum_sub_distrib]
    exact sum_congr rfl fun j _ => by rw [Int.fract, sub_mul]
  have hvalue : ∑ j ∈ Icc 1 n, Int.fract (M r j) * x j - Int.fract (M r 0) =
      ((⌊M r 0⌋ - w : ℤ) : ℚ) := by
    rw [hsplit, hrow, hw, Int.fract, Int.cast_sub]
    ring
  refine ⟨⌊M r 0⌋ - w, ?_, hvalue⟩
  have hsum : 0 ≤ ∑ j ∈ Icc 1 n, Int.fract (M r j) * x j :=
    sum_nonneg fun j hj =>
      mul_nonneg (Int.fract_nonneg _) (hint j (mem_Icc.mp hj).1 (mem_Icc.mp hj).2).1
  have hlt := Int.fract_lt_one (M r 0)
  have hbound : ((-1 : ℤ) : ℚ) < ((⌊M r 0⌋ - w : ℤ) : ℚ) := by
    rw [← hvalue, Int.cast_neg, Int.cast_one]
    linarith
  have := Int.cast_lt.mp hbound
  omega

/-! ## A cut tightens its program -/

/-- A cut keeps the numbers of the old rows and columns. -/
theorem cut_of_le {i j : ℕ} (hi : i ≤ m) (hj : j ≤ n) : M.cut m n r i j = M i j := by
  rw [cut, if_neg (by omega), if_pos hj]

/-- The old rows do not use the slack variable. -/
theorem cut_slack {i : ℕ} (hi : i ≤ m) : M.cut m n r i (n + 1) = 0 := by
  rw [cut, if_neg (by omega), if_neg (by omega)]

/-- The row of the cut has the negated fractional parts of the source row. -/
theorem cut_row {j : ℕ} (hj : j ≤ n) : M.cut m n r (m + 1) j = -Int.fract (M r j) := by
  rw [cut, if_pos rfl, if_pos hj]

/-- The slack variable is basic in the row of the cut. -/
theorem cut_row_slack : M.cut m n r (m + 1) (n + 1) = 1 := by
  rw [cut, if_pos rfl, if_neg (by omega), if_pos rfl]

/-- The slack has no part in the rows that were there before. -/
theorem sum_cut {i : ℕ} (hi : i ≤ m) (x : ℕ → ℚ) :
    ∑ j ∈ Icc 1 (n + 1), M.cut m n r i j * x j = ∑ j ∈ Icc 1 n, M i j * x j := by
  rw [sum_Icc_succ_top (by omega), cut_slack hi, zero_mul, add_zero]
  exact sum_congr rfl fun j hj => by rw [cut_of_le hi (mem_Icc.mp hj).2]

/-- The row of the cut gives the slack variable its value. -/
theorem sum_cut_row (x : ℕ → ℚ) :
    ∑ j ∈ Icc 1 (n + 1), M.cut m n r (m + 1) j * x j =
      x (n + 1) - ∑ j ∈ Icc 1 n, Int.fract (M r j) * x j := by
  have hterm : ∀ j ∈ Icc 1 n, M.cut m n r (m + 1) j * x j = -(Int.fract (M r j) * x j) := by
    intro j hj
    rw [cut_row (mem_Icc.mp hj).2, neg_mul]
  rw [sum_Icc_succ_top (by omega), cut_row_slack, one_mul, sum_congr rfl hterm, sum_neg_distrib]
  ring

/-- A point with a slack solves the program with the cut if the point solves the program and the slack is
what the cut leaves for it. -/
theorem satisfies_cut_iff (M : Values) {m n r : ℕ} (x : ℕ → ℚ) (z : ℚ) :
    (M.cut m n r).Satisfies (m + 1) (n + 1) (Function.update x (n + 1) z) ↔
      M.Satisfies m n x ∧ z = ∑ j ∈ Icc 1 n, Int.fract (M r j) * x j - Int.fract (M r 0) := by
  have hkeep : ∀ f : ℕ → ℚ,
      ∑ j ∈ Icc 1 n, f j * Function.update x (n + 1) z j = ∑ j ∈ Icc 1 n, f j * x j := fun f =>
    sum_congr rfl fun j hj => by
      have := (mem_Icc.mp hj).2
      rw [Function.update_of_ne (by omega)]
  have hslack : (∑ j ∈ Icc 1 (n + 1), M.cut m n r (m + 1) j * Function.update x (n + 1) z j =
      M.cut m n r (m + 1) 0) ↔
        z = ∑ j ∈ Icc 1 n, Int.fract (M r j) * x j - Int.fract (M r 0) := by
    rw [sum_cut_row, cut_row (Nat.zero_le n), Function.update_self, hkeep]
    exact ⟨fun h => by linarith, fun h => by linarith⟩
  have hrow : ∀ i ≤ m, (∑ j ∈ Icc 1 (n + 1), M.cut m n r i j * Function.update x (n + 1) z j =
      M.cut m n r i 0) ↔ ∑ j ∈ Icc 1 n, M i j * x j = M i 0 := fun i him => by
    rw [sum_cut him, cut_of_le him (Nat.zero_le n), hkeep]
  constructor
  · intro h
    exact ⟨fun i hi him => (hrow i him).mp (h i hi (by omega)),
      hslack.mp (h (m + 1) (by omega) le_rfl)⟩
  · rintro ⟨hx, hz⟩ i hi him
    rcases Nat.lt_succ_iff_lt_or_eq.mp (Nat.lt_succ_of_le him) with hlt | rfl
    · exact (hrow i (by omega)).mpr (hx i hi (by omega))
    · exact hslack.mpr hz

/-- An integer point remains one with an integer slack. -/
theorem integerPoint_update_iff (n : ℕ) (x : ℕ → ℚ) (z : ℚ) :
    IntegerPoint (n + 1) (Function.update x (n + 1) z) ↔
      IntegerPoint n x ∧ 0 ≤ z ∧ ∃ w : ℤ, z = w := by
  constructor
  · intro h
    refine ⟨fun j hj hjn => ?_, ?_⟩
    · have hkeep := h j hj (by omega)
      rwa [Function.update_of_ne (by omega)] at hkeep
    · have hlast := h (n + 1) (by omega) le_rfl
      rwa [Function.update_self] at hlast
  · rintro ⟨hx, hz⟩ j hj hjn
    rcases Nat.lt_succ_iff_lt_or_eq.mp (Nat.lt_succ_of_le hjn) with hlt | rfl
    · rw [Function.update_of_ne (by omega)]
      exact hx j hj (by omega)
    · rwa [Function.update_self]

/-- The integer solutions of a program are those of the program with the cut, each with exactly one
slack. -/
theorem integerPoint_cut_iff (M : Values) {m n r : ℕ} (hr : 1 ≤ r) (hrm : r ≤ m) (x : ℕ → ℚ) :
    IntegerPoint n x ∧ M.Satisfies m n x ↔
      ∃! z, IntegerPoint (n + 1) (Function.update x (n + 1) z) ∧
        (M.cut m n r).Satisfies (m + 1) (n + 1) (Function.update x (n + 1) z) := by
  simp only [satisfies_cut_iff, integerPoint_update_iff]
  constructor
  · rintro ⟨hint, hx⟩
    rcases exists_slack hint (hx r hr hrm) with ⟨w, hw, hslack⟩
    exact ⟨w, ⟨⟨hint, by exact_mod_cast hw, w, rfl⟩, hx, hslack.symm⟩,
      fun z hz => hz.2.2.trans hslack⟩
  · rintro ⟨z, ⟨⟨hint, -⟩, hx, -⟩, -⟩
    exact ⟨hint, hx⟩

/-- A cut tightens its program, whatever constraint row it comes from. -/
theorem tightens_cut (M : Values) {m n r : ℕ} (hr : 1 ≤ r) (hrm : r ≤ m) :
    M.Tightens m n (M.cut m n r) (m + 1) (n + 1) where
  columns_le := Nat.le_succ n
  satisfies x hx := by
    intro i hi him
    have hrow := hx i hi (by omega)
    rwa [sum_cut him, cut_of_le him (Nat.zero_le n)] at hrow
  cost x _ := by
    rw [Values.cost, Values.cost, sum_cut (Nat.zero_le m), cut_of_le (Nat.zero_le m) (Nat.zero_le n)]
  extends_to x hint hx := by
    rcases (M.integerPoint_cut_iff hr hrm x).mp ⟨hint, hx⟩ with ⟨z, ⟨hint', hx'⟩, -⟩
    exact ⟨_, fun j _ hjn => Function.update_of_ne (by omega) _ _, hint', hx'⟩

/-- A cut keeps a tableau canonical when its slack becomes basic in it. -/
theorem Canonical.cut (hM : M.Canonical m n β) (hr : r ≤ m) :
    (M.cut m n r).Canonical (m + 1) (n + 1) (Function.update β (m + 1) (n + 1)) where
  basic_le := by
    intro i hi him
    by_cases him' : i = m + 1
    · rw [him', Function.update_self]
    · rw [Function.update_of_ne him']
      exact (hM.basic_le i hi (by omega)).trans (Nat.le_succ n)
  unit := by
    intro i hi him k hk
    by_cases him' : i = m + 1
    · rw [him', Function.update_self]
      by_cases hkm : k = m + 1
      · rw [hkm, cut_row_slack, if_pos rfl]
      · rw [cut_slack (by omega), if_neg hkm]
    · have hle := hM.basic_le i hi (by omega)
      rw [Function.update_of_ne him']
      by_cases hkm : k = m + 1
      · -- The fractional part of a zero or a one is zero.
        rw [hkm, cut_row hle, hM.unit i hi (by omega) r hr, if_neg (by omega : ¬m + 1 = i)]
        split <;> simp
      · rw [cut_of_le (by omega) hle]
        exact hM.unit i hi (by omega) k (by omega)

end Values
end ExactSimplex
