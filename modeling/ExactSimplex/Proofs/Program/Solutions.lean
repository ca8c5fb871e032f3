import ExactSimplex.Proofs.Tableau.Pivot
import Mathlib.Algebra.BigOperators.Field
import Mathlib.Algebra.BigOperators.Intervals
import Mathlib.Algebra.Order.BigOperators.Group.Finset
import Mathlib.Algebra.Order.Interval.Finset.Basic

/-!
# The linear program of a tableau

The constraint rows of a tableau are equations for the variables {lit}`1..n`, and its objective row
gives the cost of a point.  Both are read off the row combinations with weights for all columns, where
the right-hand side has weight {lit}`-1`; two tableaux are equivalent if the same weights make their
constraint rows vanish and give their objective rows the same value.

Main results:

- Theorem {lit}`Values.equivalent_pivot`: a pivot leads to an equivalent tableau.
- Theorems {lit}`Values.Equivalent.satisfies_iff` and {lit}`Values.Equivalent.cost_eq`: equivalent
  tableaux have the same solutions at the same cost.
-/

namespace ExactSimplex

open Finset

namespace Values

/-! ## Points -/

/-- The point solves the equations of all `m` constraint rows. -/
def Satisfies (M : Values) (m n : ℕ) (x : ℕ → ℚ) : Prop :=
  ∀ i, 1 ≤ i → i ≤ m → ∑ j ∈ Icc 1 n, M i j * x j = M i 0

/-- The cost that the objective row gives to a point. -/
def cost (M : Values) (n : ℕ) (x : ℕ → ℚ) : ℚ :=
  -M 0 0 + ∑ j ∈ Icc 1 n, M 0 j * x j

/-- Only the variables of the program matter to its equations. -/
theorem Satisfies.congr {M : Values} {m n : ℕ} {x y : ℕ → ℚ} (hx : M.Satisfies m n x)
    (h : ∀ j, 1 ≤ j → j ≤ n → y j = x j) : M.Satisfies m n y := by
  intro i hi him
  rw [← hx i hi him]
  exact sum_congr rfl fun j hj => by rw [h j (mem_Icc.mp hj).1 (mem_Icc.mp hj).2]

/-- Only the variables of the program matter to the cost. -/
theorem cost_congr (M : Values) {n : ℕ} {x y : ℕ → ℚ} (h : ∀ j, 1 ≤ j → j ≤ n → y j = x j) :
    M.cost n y = M.cost n x := by
  unfold cost
  rw [sum_congr rfl fun j hj => by rw [h j (mem_Icc.mp hj).1 (mem_Icc.mp hj).2]]

end Values

namespace Tableau

/-- The point solves the equations of the constraint rows. -/
def Satisfies (T : Tableau) (x : ℕ → ℚ) : Prop :=
  T.values.Satisfies T.constraints T.columns x

/-- The cost of a point. -/
def cost (T : Tableau) (x : ℕ → ℚ) : ℚ :=
  T.values.cost T.columns x

end Tableau

/-- The variables `1..n` of a point are nonnegative. -/
def Nonneg (n : ℕ) (x : ℕ → ℚ) : Prop :=
  ∀ j, 1 ≤ j → j ≤ n → 0 ≤ x j

namespace Values

/-! ## Weighted rows -/

/-- The sum of the entries of a row, right-hand side included, with the given weights. -/
def weigh (M : Values) (n i : ℕ) (y : ℕ → ℚ) : ℚ :=
  ∑ j ∈ range (n + 1), M i j * y j

/-- The weighted sums of all `m` constraint rows vanish. -/
def Annihilates (M : Values) (m n : ℕ) (y : ℕ → ℚ) : Prop :=
  ∀ i, 1 ≤ i → i ≤ m → M.weigh n i y = 0

/-- The weights of a point: the right-hand side has weight `-1`. -/
def weightsOf (x : ℕ → ℚ) : ℕ → ℚ := fun j => if j = 0 then -1 else x j

/-- A sum over all columns is that of the right-hand side and of the variables. -/
theorem sum_columns (n : ℕ) (f : ℕ → ℚ) :
    ∑ j ∈ range (n + 1), f j = f 0 + ∑ j ∈ Icc 1 n, f j := by
  rw [range_eq_Ico, sum_eq_sum_Ico_succ_bot (Nat.succ_pos n)]
  rfl

/-- With the weights of a point a row gives the error of its equation. -/
theorem weigh_weightsOf (M : Values) (n i : ℕ) (x : ℕ → ℚ) :
    M.weigh n i (weightsOf x) = -M i 0 + ∑ j ∈ Icc 1 n, M i j * x j := by
  have htail : ∑ j ∈ Icc 1 n, M i j * weightsOf x j = ∑ j ∈ Icc 1 n, M i j * x j := by
    apply sum_congr rfl
    intro j hj
    have hne : j ≠ 0 := (Nat.lt_of_lt_of_le Nat.zero_lt_one (mem_Icc.mp hj).1).ne'
    rw [weightsOf, if_neg hne]
  unfold weigh
  rw [sum_columns, htail, weightsOf, if_pos rfl]
  ring

/-- A point is a solution exactly if its weights make the constraint rows vanish. -/
theorem satisfies_iff_annihilates (M : Values) (m n : ℕ) (x : ℕ → ℚ) :
    M.Satisfies m n x ↔ M.Annihilates m n (weightsOf x) := by
  constructor
  · intro hx i hi him
    rw [weigh_weightsOf, hx i hi him]
    ring
  · intro hy i hi him
    have hzero := hy i hi him
    rw [weigh_weightsOf] at hzero
    linarith

/-- The cost of a point is the objective row with its weights. -/
theorem cost_eq_weigh (M : Values) (n : ℕ) (x : ℕ → ℚ) :
    M.cost n x = M.weigh n 0 (weightsOf x) := by
  rw [weigh_weightsOf, cost]

/-! ## Equivalent tableaux -/

variable {M N K : Values} {m n : ℕ}

/-- The same weights make the constraint rows vanish, and they give the objective rows the same
value. -/
structure Equivalent (m n : ℕ) (M N : Values) : Prop where
  annihilates_iff : ∀ y, M.Annihilates m n y ↔ N.Annihilates m n y
  weigh_cost : ∀ y, M.Annihilates m n y → M.weigh n 0 y = N.weigh n 0 y

theorem Equivalent.refl (m n : ℕ) (M : Values) : Equivalent m n M M :=
  ⟨fun _ => Iff.rfl, fun _ _ => rfl⟩

/-- Equivalence can be read in both directions. -/
theorem Equivalent.symm (h : Equivalent m n M N) : Equivalent m n N M where
  annihilates_iff y := (h.annihilates_iff y).symm
  weigh_cost y hy := (h.weigh_cost y ((h.annihilates_iff y).mpr hy)).symm

/-- Equivalent programs of an equivalent program are equivalent. -/
theorem Equivalent.trans (h : Equivalent m n M N) (h' : Equivalent m n N K) :
    Equivalent m n M K where
  annihilates_iff y := (h.annihilates_iff y).trans (h'.annihilates_iff y)
  weigh_cost y hy := (h.weigh_cost y hy).trans (h'.weigh_cost y ((h.annihilates_iff y).mp hy))

/-- Equivalent programs have the same solutions. -/
theorem Equivalent.satisfies_iff (h : Equivalent m n M N) (x : ℕ → ℚ) :
    M.Satisfies m n x ↔ N.Satisfies m n x := by
  rw [satisfies_iff_annihilates, satisfies_iff_annihilates]
  exact h.annihilates_iff (weightsOf x)

/-- Equivalent programs give their solutions the same cost. -/
theorem Equivalent.cost_eq (h : Equivalent m n M N) {x : ℕ → ℚ} (hx : M.Satisfies m n x) :
    M.cost n x = N.cost n x := by
  rw [cost_eq_weigh, cost_eq_weigh]
  exact h.weigh_cost _ ((satisfies_iff_annihilates M m n x).mp hx)

/-! ## Pivots -/

/-- A row after a pivot, with any weights. -/
theorem weigh_pivot (M : Values) (n h t i : ℕ) (e : Elimination) (y : ℕ → ℚ) :
    (M.pivot h t e).weigh n i y =
      if i = t then M.weigh n t y / M t h
      else if e.reaches i then M.weigh n i y - M i h * (M.weigh n t y / M t h)
      else M.weigh n i y := by
  by_cases hit : i = t
  · simp only [weigh, Values.pivot, hit, if_true, sum_div]
    exact sum_congr rfl fun j _ => by ring
  · by_cases hreach : e.reaches i
    · simp only [weigh, Values.pivot, hit, hreach, if_true, if_false, sum_div, mul_sum,
        ← sum_sub_distrib]
      exact sum_congr rfl fun j _ => by ring
    · simp only [weigh, Values.pivot, hit, hreach, if_false]

/-- A pivot on a nonzero entry of a constraint row leads to an equivalent tableau. -/
theorem equivalent_pivot {h t : ℕ} (ht : 1 ≤ t) (htm : t ≤ m) (hne : M t h ≠ 0)
    (e : Elimination) : Equivalent m n M (M.pivot h t e) where
  annihilates_iff y := by
    constructor
    · intro hy i hi him
      rw [weigh_pivot, hy t ht htm, hy i hi him]
      simp
    · intro hy
      have htzero : M.weigh n t y = 0 := by
        have hpivot := hy t ht htm
        rw [weigh_pivot, if_pos rfl, div_eq_zero_iff] at hpivot
        exact hpivot.resolve_right hne
      intro i hi him
      have hrow := hy i hi him
      rw [weigh_pivot, htzero, zero_div, mul_zero, sub_zero, ite_self] at hrow
      by_cases hit : i = t
      · rw [hit, htzero]
      · rwa [if_neg hit] at hrow
  weigh_cost y hy := by
    have hne : 0 ≠ t := (Nat.lt_of_lt_of_le Nat.zero_lt_one ht).ne
    rw [weigh_pivot, hy t ht htm, zero_div, mul_zero, sub_zero, ite_self, if_neg hne]

end Values
end ExactSimplex
