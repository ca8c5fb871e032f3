import ExactSimplex.Proofs.Program.Solutions

/-!
# Canonical tableaux

In a canonical tableau the column of every basic variable is the unit vector of its row, the objective
row included.  Such a tableau shows its basic point and, for every column, the direction in which the
basic variables move when that column is raised.

Main results:

- Theorem {lit}`Values.Canonical.pivot`: a pivot keeps a tableau canonical.
- Theorems {lit}`Values.Equivalent.row_eq` and {lit}`Values.Equivalent.cost_row_eq`: the rows of an
  equivalent tableau in terms of a canonical one.
- Theorem {lit}`Values.Canonical.cost_le`: without a negative reduced cost the basic point is optimal.
- Theorem {lit}`Values.Canonical.unbounded`: a column of negative reduced cost without a positive entry
  lowers the cost without limit.
- Theorem {lit}`Values.not_satisfies_of_row`: a row of nonnegative entries and negative right-hand side
  has no nonnegative solution.
-/

namespace ExactSimplex

open Finset

namespace Values

/-! ## Numbers placed at basic columns -/

variable {m n : ℕ} {M N : Values} {β : ℕ → ℕ}

/-- The numbers `g 1, …, g m` placed at the columns `β 1, …, β m`. -/
def scatter (m : ℕ) (β : ℕ → ℕ) (g : ℕ → ℚ) : ℕ → ℚ := fun j =>
  ∑ i ∈ Icc 1 m, if β i = j then g i else 0

/-- A sum over placed numbers is one over the rows. -/
theorem sum_mul_scatter (S : Finset ℕ) (f g : ℕ → ℚ) (hβ : ∀ i, 1 ≤ i → i ≤ m → β i ∈ S) :
    ∑ j ∈ S, f j * scatter m β g j = ∑ i ∈ Icc 1 m, g i * f (β i) := by
  simp only [scatter, mul_sum]
  rw [sum_comm]
  apply sum_congr rfl
  intro i hi
  have hmem := hβ i (mem_Icc.mp hi).1 (mem_Icc.mp hi).2
  simp only [mul_ite, mul_zero]
  rw [sum_ite_eq S (β i), if_pos hmem, mul_comm]

/-- Nonnegative numbers are placed as nonnegative ones. -/
theorem scatter_nonneg {g : ℕ → ℚ} (hg : ∀ i, 1 ≤ i → i ≤ m → 0 ≤ g i) (j : ℕ) :
    0 ≤ scatter m β g j := by
  apply sum_nonneg
  intro i hi
  split
  · exact hg i (mem_Icc.mp hi).1 (mem_Icc.mp hi).2
  · exact le_rfl

/-- A column that is not basic gets zero. -/
theorem scatter_of_not_mem {g : ℕ → ℚ} {j : ℕ} (hj : ∀ i, 1 ≤ i → i ≤ m → β i ≠ j) :
    scatter m β g j = 0 := by
  apply sum_eq_zero
  intro i hi
  rw [if_neg (hj i (mem_Icc.mp hi).1 (mem_Icc.mp hi).2)]

/-! ## Canonical tableaux -/

/-- The column of every basic variable is the unit vector of its row. -/
structure Canonical (M : Values) (m n : ℕ) (β : ℕ → ℕ) : Prop where
  basic_le : ∀ i, 1 ≤ i → i ≤ m → β i ≤ n
  unit : ∀ i, 1 ≤ i → i ≤ m → ∀ k ≤ m, M k (β i) = if k = i then 1 else 0

/-- Different rows have different basic variables. -/
theorem Canonical.basic_injective (hM : M.Canonical m n β) {i k : ℕ} (hi : 1 ≤ i) (him : i ≤ m)
    (hk : 1 ≤ k) (hkm : k ≤ m) (h : β i = β k) : i = k := by
  have hone := hM.unit i hi him i him
  rw [h, hM.unit k hk hkm i him, if_pos rfl] at hone
  by_contra hne
  rw [if_neg hne] at hone
  exact zero_ne_one hone

/-- A basic column gets the number of its row. -/
theorem Canonical.scatter_basic (hM : M.Canonical m n β) {i : ℕ} (hi : 1 ≤ i) (him : i ≤ m)
    (g : ℕ → ℚ) : scatter m β g (β i) = g i := by
  have hterm : ∀ k ∈ Icc 1 m, (if β k = β i then g k else 0) = if k = i then g k else 0 := by
    intro k hk
    by_cases hki : k = i
    · rw [hki, if_pos rfl, if_pos rfl]
    · have hne : β k ≠ β i := fun h =>
        hki (hM.basic_injective (mem_Icc.mp hk).1 (mem_Icc.mp hk).2 hi him h)
      rw [if_neg hne, if_neg hki]
  unfold scatter
  rw [sum_congr rfl hterm, sum_ite_eq' (Icc 1 m) i g, if_pos (mem_Icc.mpr ⟨hi, him⟩)]

/-- A pivot on a nonzero entry keeps the tableau canonical when its column enters the basis. -/
theorem Canonical.pivot (hM : M.Canonical m n β) {h t : ℕ} (hh : h ≤ n) (htm : t ≤ m)
    (hne : M t h ≠ 0) : (M.pivot h t .all).Canonical m n (Function.update β t h) where
  basic_le := by
    intro i hi him
    by_cases hit : i = t
    · subst hit
      rwa [Function.update_self]
    · rw [Function.update_of_ne hit]
      exact hM.basic_le i hi him
  unit := by
    intro i hi him k hk
    by_cases hit : i = t
    · subst hit
      rw [Function.update_self]
      exact pivot_column hne k
    · -- The pivot row vanishes in the column of another basic variable, so that column stays.
      rw [Function.update_of_ne hit]
      have hzero : M t (β i) = 0 := by
        rw [hM.unit i hi him t htm, if_neg (Ne.symm hit)]
      rw [pivot_of_zero hzero]
      exact hM.unit i hi him k hk

/-! ## Directions -/

/-- Raises column `h` and moves the basic variables so that all constraint rows keep vanishing. -/
def direction (M : Values) (m : ℕ) (β : ℕ → ℕ) (h : ℕ) : ℕ → ℚ := fun j =>
  (if j = h then 1 else 0) - scatter m β (fun i => M i h) j

/-- No variable falls in the direction of a column without a positive entry. -/
theorem direction_nonneg {h : ℕ} (hcolumn : ∀ i, 1 ≤ i → i ≤ m → M i h ≤ 0) (j : ℕ) :
    0 ≤ M.direction m β h j := by
  have hscatter : 0 ≤ scatter m β (fun i => -M i h) j :=
    scatter_nonneg (fun i hi him => neg_nonneg.mpr (hcolumn i hi him)) j
  have hneg : scatter m β (fun i => -M i h) j = -scatter m β (fun i => M i h) j := by
    unfold scatter
    rw [← sum_neg_distrib]
    exact sum_congr rfl fun i _ => by split <;> simp
  unfold direction
  split <;> linarith

/-- What a row notices of a direction. -/
theorem weigh_direction {h : ℕ} (hh : h ≤ n) (hβ : ∀ i, 1 ≤ i → i ≤ m → β i ≤ n) (r : ℕ) :
    N.weigh n r (M.direction m β h) = N r h - ∑ i ∈ Icc 1 m, M i h * N r (β i) := by
  have hmem : ∀ i, 1 ≤ i → i ≤ m → β i ∈ range (n + 1) := fun i hi him =>
    mem_range.mpr (Nat.lt_succ_of_le (hβ i hi him))
  unfold weigh direction
  simp only [mul_sub, sum_sub_distrib, mul_ite, mul_one, mul_zero]
  rw [sum_mul_scatter _ _ _ hmem, sum_ite_eq' (range (n + 1)) h fun j => N r j,
    if_pos (mem_range.mpr (Nat.lt_succ_of_le hh))]

/-- A sum over the rows in which only one basic column is not zero. -/
theorem Canonical.sum_mul_unit (hM : M.Canonical m n β) (g : ℕ → ℚ) {r : ℕ} (hrm : r ≤ m) :
    ∑ i ∈ Icc 1 m, g i * M r (β i) = if 1 ≤ r then g r else 0 := by
  have hterm : ∀ i ∈ Icc 1 m, g i * M r (β i) = if r = i then g i else 0 := by
    intro i hi
    rw [hM.unit i (mem_Icc.mp hi).1 (mem_Icc.mp hi).2 r hrm, mul_ite, mul_one, mul_zero]
  rw [sum_congr rfl hterm, sum_ite_eq (Icc 1 m) r g]
  simp [hrm]

/-- The constraint rows of a canonical tableau do not notice a direction. -/
theorem Canonical.annihilates_direction (hM : M.Canonical m n β) {h : ℕ} (hh : h ≤ n) :
    M.Annihilates m n (M.direction m β h) := by
  intro i hi him
  rw [weigh_direction hh hM.basic_le, hM.sum_mul_unit _ him, if_pos hi, sub_self]

/-- A direction of a canonical tableau changes the cost by the reduced cost of its column. -/
theorem Canonical.weigh_cost_direction (hM : M.Canonical m n β) {h : ℕ} (hh : h ≤ n) :
    M.weigh n 0 (M.direction m β h) = M 0 h := by
  rw [weigh_direction hh hM.basic_le, hM.sum_mul_unit _ (Nat.zero_le m), if_neg (by omega), sub_zero]

/-- A constraint row of an equivalent tableau is the combination of the canonical constraint rows
with its own entries in the basic columns as factors. -/
theorem Equivalent.row_eq (heq : Equivalent m n M N) (hN : N.Canonical m n β) {r h : ℕ}
    (hr : 1 ≤ r) (hrm : r ≤ m) (hh : h ≤ n) :
    M r h = ∑ i ∈ Icc 1 m, N i h * M r (β i) := by
  have hzero := (heq.annihilates_iff _).mpr (hN.annihilates_direction hh) r hr hrm
  rw [weigh_direction hh hN.basic_le] at hzero
  exact sub_eq_zero.mp hzero

/-- The objective row of an equivalent tableau is the canonical objective row plus such a
combination. -/
theorem Equivalent.cost_row_eq (heq : Equivalent m n M N) (hN : N.Canonical m n β) {h : ℕ}
    (hh : h ≤ n) : M 0 h = N 0 h + ∑ i ∈ Icc 1 m, N i h * M 0 (β i) := by
  have hsum := heq.weigh_cost _ ((heq.annihilates_iff _).mpr (hN.annihilates_direction hh))
  rw [hN.weigh_cost_direction hh, weigh_direction hh hN.basic_le] at hsum
  linarith

/-! ## Basic points -/

/-- The right-hand sides as values of the basic variables, zero elsewhere. -/
def basicPoint (M : Values) (m : ℕ) (β : ℕ → ℕ) : ℕ → ℚ :=
  scatter m β fun i => M i 0

/-- A basic point is nonnegative if the right-hand sides are. -/
theorem basicPoint_nonneg (hrhs : ∀ i, 1 ≤ i → i ≤ m → 0 ≤ M i 0) (j : ℕ) :
    0 ≤ M.basicPoint m β j :=
  scatter_nonneg hrhs j

/-- A sum over a basic point is one over the rows. -/
theorem sum_mul_basicPoint (f : ℕ → ℚ) (hβ : ∀ i, 1 ≤ i → i ≤ m → 1 ≤ β i ∧ β i ≤ n) :
    ∑ j ∈ Icc 1 n, f j * M.basicPoint m β j = ∑ i ∈ Icc 1 m, M i 0 * f (β i) :=
  sum_mul_scatter _ _ _ fun i hi him => mem_Icc.mpr (hβ i hi him)

/-- The basic point of a canonical tableau is a solution. -/
theorem Canonical.satisfies_basicPoint (hM : M.Canonical m n β) (hβ : ∀ i, 1 ≤ i → i ≤ m → 1 ≤ β i) :
    M.Satisfies m n (M.basicPoint m β) := by
  intro i hi him
  rw [sum_mul_basicPoint _ fun k hk hkm => ⟨hβ k hk hkm, hM.basic_le k hk hkm⟩,
    hM.sum_mul_unit _ him, if_pos hi]

/-- The cost of the basic point is the negated corner of the tableau. -/
theorem Canonical.cost_basicPoint (hM : M.Canonical m n β) (hβ : ∀ i, 1 ≤ i → i ≤ m → 1 ≤ β i) :
    M.cost n (M.basicPoint m β) = -M 0 0 := by
  unfold cost
  rw [sum_mul_basicPoint _ fun k hk hkm => ⟨hβ k hk hkm, hM.basic_le k hk hkm⟩,
    hM.sum_mul_unit _ (Nat.zero_le m), if_neg (by omega), add_zero]

/-! ## Verdicts -/

/-- Without a negative reduced cost no nonnegative point costs less than the shown value. -/
theorem cost_le (hcost : ∀ j, 1 ≤ j → j ≤ n → 0 ≤ M 0 j) {x : ℕ → ℚ} (hx : Nonneg n x) :
    -M 0 0 ≤ M.cost n x := by
  have hsum : 0 ≤ ∑ j ∈ Icc 1 n, M 0 j * x j :=
    sum_nonneg fun j hj =>
      mul_nonneg (hcost j (mem_Icc.mp hj).1 (mem_Icc.mp hj).2) (hx j (mem_Icc.mp hj).1 (mem_Icc.mp hj).2)
  unfold cost
  linarith

/-- A row of nonnegative entries and negative right-hand side has no nonnegative solution. -/
theorem not_satisfies_of_row {t : ℕ} (ht : 1 ≤ t) (htm : t ≤ m) (hrhs : M t 0 < 0)
    (hrow : ∀ j, 1 ≤ j → j ≤ n → 0 ≤ M t j) {x : ℕ → ℚ} (hx : Nonneg n x) :
    ¬M.Satisfies m n x := by
  intro hsat
  have hsum : 0 ≤ ∑ j ∈ Icc 1 n, M t j * x j :=
    sum_nonneg fun j hj =>
      mul_nonneg (hrow j (mem_Icc.mp hj).1 (mem_Icc.mp hj).2) (hx j (mem_Icc.mp hj).1 (mem_Icc.mp hj).2)
  rw [hsat t ht htm] at hsum
  exact absurd hrhs (not_lt.mpr hsum)

/-- The point that is reached from the basic one by raising column `h` to `c`. -/
def rayPoint (M : Values) (m : ℕ) (β : ℕ → ℕ) (h : ℕ) (c : ℚ) : ℕ → ℚ := fun j =>
  M.basicPoint m β j + c * M.direction m β h j

/-- A sum over a point of the ray is that over the basic point and a multiple of the step. -/
theorem sum_mul_rayPoint (f : ℕ → ℚ) (hβ : ∀ i, 1 ≤ i → i ≤ m → 1 ≤ β i ∧ β i ≤ n) {h : ℕ}
    (hh : 1 ≤ h) (hhn : h ≤ n) (c : ℚ) :
    ∑ j ∈ Icc 1 n, f j * M.rayPoint m β h c j =
      ∑ i ∈ Icc 1 m, M i 0 * f (β i) + c * (f h - ∑ i ∈ Icc 1 m, M i h * f (β i)) := by
  have hdirection : ∑ j ∈ Icc 1 n, f j * M.direction m β h j =
      f h - ∑ i ∈ Icc 1 m, M i h * f (β i) := by
    unfold direction
    simp only [mul_sub, sum_sub_distrib, mul_ite, mul_one, mul_zero]
    rw [sum_mul_scatter _ _ _ fun i hi him => mem_Icc.mpr (hβ i hi him),
      sum_ite_eq' (Icc 1 n) h f, if_pos (mem_Icc.mpr ⟨hh, hhn⟩)]
  rw [← sum_mul_basicPoint f hβ, ← hdirection, mul_sum, ← sum_add_distrib]
  apply sum_congr rfl
  intro j _
  unfold rayPoint
  ring

/-- A column of negative reduced cost without a positive entry lowers the cost without limit. -/
theorem Canonical.unbounded (hM : M.Canonical m n β) (hβ : ∀ i, 1 ≤ i → i ≤ m → 1 ≤ β i)
    (hrhs : ∀ i, 1 ≤ i → i ≤ m → 0 ≤ M i 0) {h : ℕ} (hh : 1 ≤ h) (hhn : h ≤ n)
    (hcost : M 0 h < 0) (hcolumn : ∀ i, 1 ≤ i → i ≤ m → M i h ≤ 0) (K : ℚ) :
    ∃ x, Nonneg n x ∧ M.Satisfies m n x ∧ M.cost n x < K := by
  have hbound : ∀ i, 1 ≤ i → i ≤ m → 1 ≤ β i ∧ β i ≤ n := fun i hi him =>
    ⟨hβ i hi him, hM.basic_le i hi him⟩
  -- Far enough along the ray the cost `-M 0 0 + c * M 0 h` is below `K`.
  obtain ⟨c, hc, hbelow⟩ : ∃ c : ℚ, 0 ≤ c ∧ -M 0 0 + c * M 0 h < K := by
    refine ⟨(|K + M 0 0| + 1) / -M 0 h, ?_, ?_⟩
    · exact div_nonneg (by positivity) (by linarith)
    · have hscale : (|K + M 0 0| + 1) / -M 0 h * M 0 h = -(|K + M 0 0| + 1) := by
        rw [div_neg, neg_mul, div_mul_cancel₀ _ hcost.ne]
      have := neg_abs_le (K + M 0 0)
      rw [hscale]
      linarith
  refine ⟨M.rayPoint m β h c, ?_, ?_, ?_⟩
  · intro j _ _
    exact add_nonneg (basicPoint_nonneg hrhs j) (mul_nonneg hc (direction_nonneg hcolumn j))
  · intro i hi him
    rw [sum_mul_rayPoint _ hbound hh hhn, hM.sum_mul_unit _ him, hM.sum_mul_unit _ him, if_pos hi,
      if_pos hi]
    ring
  · unfold cost
    rw [sum_mul_rayPoint _ hbound hh hhn, hM.sum_mul_unit _ (Nat.zero_le m),
      hM.sum_mul_unit _ (Nat.zero_le m), if_neg (by omega), if_neg (by omega)]
    linarith

end Values
end ExactSimplex
