import ExactSimplex.Proofs.Program.Cuts
import Mathlib.Algebra.Order.Archimedean.Basic
import Mathlib.Algebra.Order.BigOperators.Ring.Finset

/-!
# Descending directions

Where a column of negative reduced cost has no positive entry, there is a direction of nonnegative numbers
that no constraint row notices and that lowers the cost.  It starts from every solution of the program, and as
its numbers are rational, a multiple of it consists of integers.  So it lowers the cost without limit from every
solution, and from every integer solution through integer solutions; but it does not provide a solution to
start from.

Main results:

- Theorem {lit}`Values.Canonical.descends_direction`: the direction that a canonical tableau shows.
- Theorem {lit}`Values.Equivalent.descends`: equivalent tableaux have the same descending directions.
- Theorem {lit}`Nonneg.exists_integer_multiple`: a multiple of a direction consists of integers.
- Theorem {lit}`Values.Descends.exists_lt`: how far a direction leads down.
-/

namespace ExactSimplex

open Finset

variable {m n : ℕ}

/-! ## Multiples of directions -/

/-- A multiple of finitely many nonnegative rationals consists of integers. -/
theorem Nonneg.exists_integer_multiple {d : ℕ → ℚ} (hd : Nonneg n d) :
    ∃ c : ℕ, 0 < c ∧ IntegerPoint n fun j => c * d j := by
  refine ⟨∏ j ∈ Icc 1 n, (d j).den, prod_pos fun j _ => (d j).den_pos, fun j hj hjn => ⟨?_, ?_⟩⟩
  · exact mul_nonneg (Nat.cast_nonneg _) (hd j hj hjn)
  · rcases dvd_prod_of_mem (fun j => (d j).den) (mem_Icc.mpr ⟨hj, hjn⟩) with ⟨k, hk⟩
    refine ⟨k * (d j).num, ?_⟩
    rw [hk]
    push_cast
    rw [mul_comm ((d j).den : ℚ), mul_assoc, mul_comm ((d j).den : ℚ), Rat.mul_den_eq_num]

/-- A nonnegative point stays nonnegative along a nonnegative direction. -/
theorem Nonneg.add_multiple {x d : ℕ → ℚ} (hx : Nonneg n x) (hd : Nonneg n d) (c : ℕ) :
    Nonneg n fun j => x j + c * d j :=
  fun j hj hjn => add_nonneg (hx j hj hjn) (mul_nonneg (Nat.cast_nonneg c) (hd j hj hjn))

/-- An integer point stays an integer point along an integer direction. -/
theorem IntegerPoint.add_multiple {x d : ℕ → ℚ} (hx : IntegerPoint n x) (hd : IntegerPoint n d)
    (c : ℕ) : IntegerPoint n fun j => x j + c * d j := by
  intro j hj hjn
  refine ⟨hx.nonneg.add_multiple hd.nonneg c j hj hjn, ?_⟩
  rcases (hx j hj hjn).2 with ⟨z, hz⟩
  rcases (hd j hj hjn).2 with ⟨w, hw⟩
  exact ⟨z + c * w, by push_cast; rw [hz, hw]⟩

namespace Values

/-! ## Descending directions -/

/-- The constraint rows do not notice the direction, and it lowers the cost. -/
structure Descends (M : Values) (m n : ℕ) (d : ℕ → ℚ) : Prop where
  rows : ∀ i, 1 ≤ i → i ≤ m → ∑ j ∈ Icc 1 n, M i j * d j = 0
  cost : ∑ j ∈ Icc 1 n, M 0 j * d j < 0

variable {M N : Values} {β : ℕ → ℕ} {d : ℕ → ℚ} {h : ℕ}

/-- A direction without a weight for the right-hand side is weighed by its variables. -/
theorem weigh_of_zero (hd : d 0 = 0) (i : ℕ) : M.weigh n i d = ∑ j ∈ Icc 1 n, M i j * d j := by
  unfold weigh
  rw [sum_columns, hd, mul_zero, zero_add]

/-- A direction descends exactly if the constraint rows do not notice it and the objective row does. -/
theorem descends_iff (hd : d 0 = 0) : M.Descends m n d ↔ M.Annihilates m n d ∧ M.weigh n 0 d < 0 := by
  have hrows : M.Annihilates m n d ↔ ∀ i, 1 ≤ i → i ≤ m → ∑ j ∈ Icc 1 n, M i j * d j = 0 :=
    forall_congr' fun i => by rw [weigh_of_zero hd]
  rw [hrows, weigh_of_zero hd]
  exact ⟨fun h => ⟨h.rows, h.cost⟩, fun h => ⟨h.1, h.2⟩⟩

/-- Only variables move in the direction of a variable. -/
theorem direction_zero (hβ : ∀ i, 1 ≤ i → i ≤ m → 1 ≤ β i) (hh : 1 ≤ h) :
    M.direction m β h 0 = 0 := by
  have hscatter : scatter m β (fun i => M i h) 0 = 0 :=
    scatter_of_not_mem fun i hi him => Nat.ne_of_gt (hβ i hi him)
  unfold direction
  rw [hscatter, if_neg (by omega), sub_zero]

/-- A column of negative reduced cost shows a descending direction. -/
theorem Canonical.descends_direction (hM : M.Canonical m n β) (hβ : ∀ i, 1 ≤ i → i ≤ m → 1 ≤ β i)
    (hh : 1 ≤ h) (hhn : h ≤ n) (hcost : M 0 h < 0) : M.Descends m n (M.direction m β h) := by
  refine (descends_iff (direction_zero hβ hh)).mpr ⟨hM.annihilates_direction hhn, ?_⟩
  rwa [hM.weigh_cost_direction hhn]

/-- Equivalent programs have the same descending directions. -/
theorem Equivalent.descends (heq : Equivalent m n M N) (hzero : d 0 = 0) (hd : N.Descends m n d) :
    M.Descends m n d := by
  rcases (descends_iff hzero).mp hd with ⟨hrows, hcost⟩
  have hrows' := (heq.annihilates_iff d).mpr hrows
  refine (descends_iff hzero).mpr ⟨hrows', ?_⟩
  rwa [heq.weigh_cost d hrows']

namespace Descends

/-- A positive multiple of a descending direction descends. -/
theorem multiple (hd : M.Descends m n d) {c : ℕ} (hc : 0 < c) :
    M.Descends m n fun j => c * d j := by
  have hsum : ∀ i, ∑ j ∈ Icc 1 n, M i j * (c * d j) = c * ∑ j ∈ Icc 1 n, M i j * d j := by
    intro i
    rw [mul_sum]
    exact sum_congr rfl fun j _ => by ring
  refine ⟨fun i hi him => ?_, ?_⟩
  · rw [hsum, hd.rows i hi him, mul_zero]
  · rw [hsum]
    exact mul_neg_of_pos_of_neg (Nat.cast_pos.mpr hc) hd.cost

/-- A descending direction of nonnegative numbers has a multiple that consists of integers. -/
theorem exists_integer (hd : M.Descends m n d) (hnonneg : Nonneg n d) :
    ∃ d', IntegerPoint n d' ∧ M.Descends m n d' := by
  rcases hnonneg.exists_integer_multiple with ⟨c, hc, hint⟩
  exact ⟨_, hint, hd.multiple hc⟩

/-- From every solution a descending direction leads to solutions of any low cost. -/
theorem exists_lt (hd : M.Descends m n d) {x : ℕ → ℚ} (hx : M.Satisfies m n x) (K : ℚ) :
    ∃ c : ℕ, M.Satisfies m n (fun j => x j + c * d j) ∧ M.cost n (fun j => x j + c * d j) < K := by
  have hsum : ∀ (c : ℕ) (i : ℕ), ∑ j ∈ Icc 1 n, M i j * (x j + c * d j) =
      ∑ j ∈ Icc 1 n, M i j * x j + c * ∑ j ∈ Icc 1 n, M i j * d j := by
    intro c i
    rw [mul_sum, ← sum_add_distrib]
    exact sum_congr rfl fun j _ => by ring
  set slope := ∑ j ∈ Icc 1 n, M 0 j * d j with hslope
  have hfall : 0 < -slope := neg_pos.mpr hd.cost
  rcases exists_nat_gt ((M.cost n x - K) / -slope) with ⟨c, hc⟩
  refine ⟨c, fun i hi him => ?_, ?_⟩
  · rw [hsum, hx i hi him, hd.rows i hi him, mul_zero, add_zero]
  · have hdrop : M.cost n x - K < c * -slope := (div_lt_iff₀ hfall).mp hc
    have hcost : M.cost n (fun j => x j + c * d j) = M.cost n x + c * slope := by
      unfold Values.cost
      rw [hsum, add_assoc]
    rw [hcost]
    linarith

end Descends
end Values
end ExactSimplex
