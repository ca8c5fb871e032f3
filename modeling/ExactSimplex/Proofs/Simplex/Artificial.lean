import ExactSimplex.Proofs.Program.Canonical
import ExactSimplex.Proofs.Tableau.Canonical
import ExactSimplex.Simplex.PhaseOne

/-!
# The artificial program

The artificial program has one more variable for every constraint row, and its cost is the sum of these
artificial variables.  The points in which they vanish are the solutions of the original program.

Main results:

- Theorem {lit}`Tableau.Represents.artificialTableau`: the numbers of the artificial tableau.
- Theorem {lit}`Values.satisfies_artificial_iff`: the solutions without artificial part.
- Theorem {lit}`Values.eq_zero_of_cost_artificial`: a point of cost zero has no artificial part.
-/

namespace ExactSimplex

open Finset Fraction

namespace Values

/-! ## The artificial program -/

/-- The entries of a row, with the other sign if its right-hand side is negative. -/
def oriented (M : Values) : Values := fun i j => if M i 0 < 0 then -M i j else M i j

/-- The numbers of the artificial tableau. -/
def artificial (M : Values) (m n : ℕ) : Values := fun i j =>
  if i = 0 then if n < j ∧ j ≤ n + m then 1 else 0
  else if m < i then 0
  else if j ≤ n then M.oriented i j
  else if j = n + i then 1 else 0

/-- The weights of the first `n` variables, none for the others. -/
def below (n : ℕ) (y : ℕ → ℚ) : ℕ → ℚ := fun j => if j ≤ n then y j else 0

variable {M N : Values} {m n : ℕ}

/-- The artificial variables cost one each, and nothing else costs anything. -/
theorem artificial_zero (M : Values) (m n j : ℕ) :
    M.artificial m n 0 j = if n < j ∧ j ≤ n + m then 1 else 0 :=
  if_pos rfl

/-- The old columns of a constraint row are those of the oriented row. -/
theorem artificial_of_le {i j : ℕ} (hi : 1 ≤ i) (him : i ≤ m) (hj : j ≤ n) :
    M.artificial m n i j = M.oriented i j := by
  rw [artificial, if_neg (by omega), if_neg (by omega), if_pos hj]

/-- The columns of the artificial variables are unit vectors. -/
theorem artificial_unit {i k : ℕ} (hi : 1 ≤ i) (hk : 1 ≤ k) (hkm : k ≤ m) :
    M.artificial m n k (n + i) = if k = i then 1 else 0 := by
  rw [artificial, if_neg (by omega), if_neg (by omega), if_neg (by omega)]
  have hiff : n + i = n + k ↔ k = i := by omega
  simp only [hiff]

/-- Beyond the artificial variables all numbers are zero. -/
theorem artificial_of_columns_lt {i j : ℕ} (hj : n + m < j) : M.artificial m n i j = 0 := by
  unfold artificial
  split
  · rw [if_neg (by omega)]
  · split
    · rfl
    · rw [if_neg (by omega), if_neg (by omega)]

/-- Below the last row all numbers are zero. -/
theorem artificial_of_constraints_lt {i j : ℕ} (hi : m < i) : M.artificial m n i j = 0 := by
  rw [artificial, if_neg (by omega), if_pos hi]

/-- The oriented rows have nonnegative right-hand sides. -/
theorem oriented_rhs_nonneg (M : Values) (i : ℕ) : 0 ≤ M.oriented i 0 := by
  unfold oriented
  split <;> linarith

/-! ## Points without artificial part -/

/-- Weights that stop at the old columns only see these. -/
theorem weigh_below (N : Values) (m n i : ℕ) (y : ℕ → ℚ) :
    N.weigh (n + m) i (below n y) = N.weigh n i y := by
  have hsubset : range (n + 1) ⊆ range (n + m + 1) := range_subset_range.mpr (by omega)
  unfold weigh
  rw [← sum_subset hsubset]
  · refine sum_congr rfl fun j hj => ?_
    rw [below, if_pos (Nat.le_of_lt_succ (mem_range.mp hj))]
  · intro j _ hj
    rw [below, if_neg (fun h => hj (mem_range.mpr (Nat.lt_succ_of_le h))), mul_zero]

/-- The weights of a point that stops at the old variables stop there, too. -/
theorem weightsOf_below (n : ℕ) (x : ℕ → ℚ) : weightsOf (below n x) = below n (weightsOf x) := by
  funext j
  by_cases hj : j = 0
  · simp [weightsOf, below, hj]
  · simp [weightsOf, below, hj]

/-- A weighted row of the artificial program, up to the orientation. -/
theorem weigh_artificial {i : ℕ} (hi : 1 ≤ i) (him : i ≤ m) (y : ℕ → ℚ) :
    (M.artificial m n).weigh n i y = if M i 0 < 0 then -M.weigh n i y else M.weigh n i y := by
  have hrow : (M.artificial m n).weigh n i y = M.oriented.weigh n i y :=
    sum_congr rfl fun j hj => by
      rw [artificial_of_le hi him (Nat.le_of_lt_succ (mem_range.mp hj))]
  rw [hrow]
  unfold weigh oriented
  split
  · simp [sum_neg_distrib]
  · rfl

/-- Weights without artificial part make the rows of the artificial program vanish exactly if they do so
for the original one. -/
theorem annihilates_artificial_iff (M : Values) (m n : ℕ) (y : ℕ → ℚ) :
    (M.artificial m n).Annihilates m (n + m) (below n y) ↔ M.Annihilates m n y := by
  have hrow : ∀ i, 1 ≤ i → i ≤ m →
      ((M.artificial m n).weigh (n + m) i (below n y) = 0 ↔ M.weigh n i y = 0) := by
    intro i hi him
    rw [weigh_below, weigh_artificial hi him]
    split
    · exact neg_eq_zero
    · exact Iff.rfl
  exact ⟨fun h i hi him => (hrow i hi him).mp (h i hi him),
    fun h i hi him => (hrow i hi him).mpr (h i hi him)⟩

/-- Without artificial variables both programs have the same solutions. -/
theorem satisfies_artificial_iff (M : Values) (m n : ℕ) (x : ℕ → ℚ) :
    (M.artificial m n).Satisfies m (n + m) (below n x) ↔ M.Satisfies m n x := by
  rw [satisfies_iff_annihilates, satisfies_iff_annihilates, weightsOf_below]
  exact annihilates_artificial_iff M m n _

/-! ## The artificial cost -/

/-- The cost of the artificial program is a sum over the artificial variables. -/
theorem cost_artificial (M : Values) (m n : ℕ) (x : ℕ → ℚ) :
    (M.artificial m n).cost (n + m) x = ∑ j ∈ Icc 1 (n + m), M.artificial m n 0 j * x j := by
  rw [cost, artificial_zero, if_neg (by omega), neg_zero, zero_add]

/-- No term of this cost is negative at a nonnegative point. -/
theorem cost_term_nonneg {x : ℕ → ℚ} (hx : Nonneg (n + m) x) :
    ∀ j ∈ Icc 1 (n + m), 0 ≤ M.artificial m n 0 j * x j := by
  intro j hj
  rw [artificial_zero]
  have hxj := hx j (mem_Icc.mp hj).1 (mem_Icc.mp hj).2
  split
  · rwa [one_mul]
  · rw [zero_mul]

/-- The cost of the artificial program is nonnegative. -/
theorem cost_artificial_nonneg {x : ℕ → ℚ} (hx : Nonneg (n + m) x) :
    0 ≤ (M.artificial m n).cost (n + m) x := by
  rw [cost_artificial]
  exact sum_nonneg (cost_term_nonneg hx)

/-- A nonnegative point of cost zero has no artificial part. -/
theorem eq_zero_of_cost_artificial {x : ℕ → ℚ} (hx : Nonneg (n + m) x)
    (hcost : (M.artificial m n).cost (n + m) x = 0) {j : ℕ} (hj : n < j) (hjm : j ≤ n + m) :
    x j = 0 := by
  rw [cost_artificial, sum_eq_zero_iff_of_nonneg (cost_term_nonneg hx)] at hcost
  have hterm := hcost j (mem_Icc.mpr ⟨by omega, hjm⟩)
  rwa [artificial_zero, if_pos ⟨hj, hjm⟩, one_mul] at hterm

/-- Without artificial variables it is zero. -/
theorem cost_artificial_below (M : Values) (m n : ℕ) (x : ℕ → ℚ) :
    (M.artificial m n).cost (n + m) (below n x) = 0 := by
  rw [cost_artificial]
  apply sum_eq_zero
  intro j _
  rw [artificial_zero, below]
  rcases Nat.lt_or_ge n j with hj | hj
  · rw [if_neg (by omega : ¬j ≤ n), mul_zero]
  · rw [if_neg (by omega : ¬(n < j ∧ j ≤ n + m)), zero_mul]

end Values

/-! ## The artificial tableau -/

namespace Tableau

variable {T : Tableau} {m n : ℕ} {M : Values}

/-- The entries that are appended to a row are those of its artificial variables. -/
theorem unitRowEntries_eq {i : ℕ} (hi : 1 ≤ i) (him : i ≤ m) :
    unitRowEntries (i - 1) m =
      (List.range m).map fun k => ofRat (M.artificial m n i (n + 1 + k)) := by
  unfold unitRowEntries
  apply List.map_congr_left
  intro k hk
  have hkm := List.mem_range.mp hk
  rw [Nat.add_assoc n 1 k, Values.artificial_unit (by omega) hi him]
  have hiff : i = 1 + k ↔ k = i - 1 := by omega
  simp only [hiff]
  split
  · exact one_eq_ofRat
  · exact zero_eq_ofRat

/-- A stored row is negated entry by entry. -/
theorem mapM_neg_storedRow (n : ℕ) (f : ℕ → ℚ) :
    (storedRow n f).mapM (Fraction.neg .exact) = .ok (storedRow n fun j => -f j) := by
  have hneg : ∀ a ∈ storedRow n f, Fraction.neg .exact a = .ok (ofRat (-a.toRat)) := by
    intro a ha
    rcases List.mem_map.mp ha with ⟨j, -, rfl⟩
    rw [neg_ofRat, toRat_ofRat]
  rw [Calc.mapM_eq_ok hneg]
  simp [storedRow]

/-- The rows of the artificial program, by induction on their number. -/
theorem Represents.artificialRows (hT : T.Represents m n M) (row count : ℕ) (hrow : 1 ≤ row)
    (hcount : row + count ≤ m + 1) :
    T.artificialRows .exact row count =
      .ok ((List.range' row count).map fun i => storedRow (n + m) (M.artificial m n i)) := by
  induction count generalizing row with
  | zero => rfl
  | succ count ih =>
      have hrowm : row ≤ m := by omega
      have hentries : storedRow n (M.artificial m n row) = storedRow n (M.oriented row) :=
        storedRow_congr fun j hj => Values.artificial_of_le hrow hrowm hj
      rw [List.range'_succ, List.map_cons, storedRow_add, hentries, ← unitRowEntries_eq hrow hrowm]
      unfold Tableau.artificialRows
      simp only [hT.rhs hrowm, hT.row hrowm, hT.constraints, isNegative_ofRat,
        ih (row + 1) (by omega) (by omega), bind, Except.bind]
      by_cases hneg : M row 0 < 0
      · have horiented : (fun j => -M row j) = M.oriented row := by
          funext j
          rw [Values.oriented, if_pos hneg]
        simp only [hneg, decide_true, if_true, mapM_neg_storedRow, horiented]
        rfl
      · have horiented : M row = M.oriented row := by
          funext j
          rw [Values.oriented, if_neg hneg]
        simp only [hneg, decide_false, Bool.false_eq_true, if_false, ← horiented]
        rfl

/-- The artificial tableau holds the numbers of the artificial program. -/
theorem Represents.artificialTableau (hT : T.Represents m n M) :
    ∃ U, T.artificialTableau .exact = .ok U ∧ U.Represents m (n + m) (M.artificial m n) := by
  have hcosts : List.replicate T.width Fraction.zero ++ List.replicate T.constraints Fraction.one =
      storedRow (n + m) (M.artificial m n 0) := by
    have hzeros : storedRow n (M.artificial m n 0) = List.replicate T.width Fraction.zero := by
      rw [width, hT.columns, storedRow_congr (g := fun _ => 0) fun j hj => by
        rw [Values.artificial_zero, if_neg (by omega)]]
      simp [storedRow, List.map_const', zero_eq_ofRat]
    have hones : (List.range m).map (fun k => ofRat (M.artificial m n 0 (n + 1 + k))) =
        List.replicate T.constraints Fraction.one := by
      rw [hT.constraints, List.map_congr_left (g := fun _ => Fraction.one) fun k hk => by
        have := List.mem_range.mp hk
        rw [Values.artificial_zero, if_pos (by omega), one_eq_ofRat]]
      simp [List.map_const']
    rw [storedRow_add, hzeros, hones]
  have hrows := hT.artificialRows 1 m le_rfl (by omega)
  refine ⟨_, ?_, represents_of_rows (fun i j hj => Values.artificial_of_columns_lt hj)
    fun i j hi => Values.artificial_of_constraints_lt hi⟩
  unfold Tableau.artificialTableau
  simp only [hT.constraints, hT.columns, hrows, bind, Except.bind] at hcosts ⊢
  rw [hcosts, List.range_eq_range', List.range'_succ, List.map_cons, List.flatten_cons]
  rfl

/-! ## The artificial basis -/

/-- The artificial variables are basic, each in its own row. -/
theorem represents_artificialBasis (T : Tableau) :
    T.artificialBasis.Represents T.constraints T.artificialBasis.basic ∧
      ∀ i, 1 ≤ i → i ≤ T.constraints → T.artificialBasis.basic i = T.columns + i := by
  refine ⟨⟨by simp [artificialBasis, Basis.size], rfl⟩, fun i hi him => ?_⟩
  rcases Nat.exists_eq_add_of_le' hi with ⟨i, rfl⟩
  have hlt : i < T.constraints := by omega
  simp [artificialBasis, Basis.basic, hlt]
  omega

/-- The artificial variables are basic in their rows. -/
theorem artificialBasis_basic {i : ℕ} (hT : T.Represents m n M) (hi : 1 ≤ i) (him : i ≤ m) :
    T.artificialBasis.basic i = n + i := by
  rw [T.represents_artificialBasis.2 i hi (by rwa [hT.constraints]), hT.columns]

/-- The artificial basis covers every row. -/
theorem size_artificialBasis (hT : T.Represents m n M) : T.artificialBasis.size = m :=
  T.represents_artificialBasis.1.size.trans hT.constraints

end Tableau
end ExactSimplex
