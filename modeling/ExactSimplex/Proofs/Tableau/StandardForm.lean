import ExactSimplex.Proofs.Tableau.Rows

/-!
# Tableaux in standard form

The tableau of "minimize `c x` subject to `A x = b`" is built in two steps: each row of `A` is put after its
right-hand side, and the rows are stored one after the other below the objective.  Both steps check lengths.  The
first step has made all rows equally long, so the second has nothing to refuse.

Main results:

- Theorem {lit}`Tableau.ofRows_of_full`: rows of one length are stored one after the other.
- Theorem {lit}`Tableau.ofStandardForm_of_wrong`: the first row of a wrong length is reported.
- Theorem {lit}`Tableau.laidOut_of_ofStandardForm`: a tableau in standard form is well shaped.
- Theorem {lit}`Tableau.exists_ofStandardForm`: a program whose lengths agree is laid out entry by entry.
- Theorem {lit}`Tableau.StandardForm.eq`: a program has one tableau.
-/

namespace ExactSimplex
namespace Tableau

variable {T : Tableau} {rows A : List (List Fraction)} {b costs : List Fraction} {columns : ℕ}

/-! ## Rows of one length -/

/-- Full rows, one after the other, have as many entries as rows and columns say. -/
theorem length_flatten_of_full (hrows : ∀ row ∈ rows, row.length = columns + 1) :
    rows.flatten.length = rows.length * (columns + 1) := by
  rw [List.length_flatten, List.map_congr_left hrows, List.map_const', List.sum_replicate_nat]

/-- Rows of one length are stored one after the other. -/
theorem ofRows_of_full (hne : rows ≠ []) (hrows : ∀ row ∈ rows, row.length = columns + 1) :
    ofRows rows = .ok ⟨columns, rows.length - 1, rows.flatten.toArray⟩ := by
  have hwidth : (rows.head?.map List.length).getD 0 = columns + 1 := by
    cases rows with
    | nil => contradiction
    | cons row rest => exact hrows row List.mem_cons_self
  have hragged : (rows.findIdx? fun row => row.length != columns + 1) = none := by
    rw [List.findIdx?_eq_none_iff]
    intro row hrow
    simp [hrows row hrow]
  have hpos : ¬(rows.length = 0 ∨ columns + 1 = 0) := by simpa using hne
  unfold ofRows
  dsimp only
  rw [hwidth, hragged]
  dsimp only
  rw [ofEntries, if_neg hpos, if_pos (length_flatten_of_full hrows).symm]
  rfl

/-- Rows with the right number of coefficients are put after their right-hand sides. -/
theorem constraintRows_of_full (hA : ∀ row ∈ A, row.length = columns) (b : List Fraction) :
    constraintRows columns A b = .ok (List.zipWith (fun row rhs => rhs :: row) A b) := by
  induction A generalizing b with
  | nil => cases b <;> rfl
  | cons row rest ih =>
      cases b with
      | nil => rfl
      | cons rhs b =>
          rw [List.forall_mem_cons] at hA
          rw [constraintRows, if_pos hA.1, ih hA.2]
          rfl

/-- The first wrong number of coefficients is reported, by induction on those before it. -/
theorem constraintRows_of_wrong {before after : List ℕ} {found : ℕ}
    (hlengths : A.map List.length = before ++ found :: after) (hbefore : ∀ n ∈ before, n = columns)
    (hfound : found ≠ columns) (hb : A.length ≤ b.length) :
    constraintRows columns A b = .error (.dimension .constraintRow columns found) := by
  induction before generalizing A b with
  | nil =>
      rcases A with _ | ⟨row, rest⟩
      · cases hlengths
      rcases b with _ | ⟨rhs, b⟩
      · cases hb
      rw [List.map_cons, List.nil_append, List.cons.injEq] at hlengths
      rw [constraintRows, hlengths.1, if_neg hfound]
  | cons n before ih =>
      rcases A with _ | ⟨row, rest⟩
      · cases hlengths
      rcases b with _ | ⟨rhs, b⟩
      · cases hb
      rw [List.map_cons, List.cons_append, List.cons.injEq] at hlengths
      rw [List.forall_mem_cons] at hbefore
      rw [constraintRows, if_pos (hlengths.1.trans hbefore.1),
        ih hlengths.2 hbefore.2 (Nat.le_of_succ_le_succ hb)]
      rfl

/-! ## Programs -/

/-- The rows of a program, the objective first, each after its right-hand side. -/
def standardRows (A : List (List Fraction)) (b costs : List Fraction) : List (List Fraction) :=
  (Fraction.zero :: costs) :: List.zipWith (fun row rhs => rhs :: row) A b

/-- Every row but the first is a row of `A` after its right-hand side. -/
theorem mem_standardRows {row : List Fraction} (h : row ∈ standardRows A b costs) :
    row = Fraction.zero :: costs ∨ ∃ given ∈ A, ∃ rhs ∈ b, row = rhs :: given := by
  rcases List.mem_cons.mp h with hfirst | hrest
  · exact Or.inl hfirst
  · rcases List.mem_iff_getElem?.mp hrest with ⟨i, hi⟩
    rcases List.getElem?_zipWith_eq_some.mp hi with ⟨given, rhs, hgiven, hrhs, hrow⟩
    exact Or.inr ⟨given, List.mem_of_getElem? hgiven, rhs, List.mem_of_getElem? hrhs, hrow.symm⟩

/-- There is one row for each constraint, and the objective row. -/
theorem length_standardRows (hb : b.length = A.length) : (standardRows A b costs).length = A.length + 1 := by
  simp [standardRows, hb]

/-- If the lengths agree, all rows are equally long. -/
theorem length_of_mem_standardRows (hA : ∀ row ∈ A, row.length = costs.length) {row : List Fraction}
    (h : row ∈ standardRows A b costs) : row.length = costs.length + 1 := by
  rcases mem_standardRows h with rfl | ⟨given, hgiven, rhs, -, rfl⟩
  · rfl
  · rw [List.length_cons, hA given hgiven]

/-- If the lengths agree, the rows are stored one after the other. -/
theorem ofStandardForm_of_lengths (hb : b.length = A.length) (hA : ∀ row ∈ A, row.length = costs.length) :
    ofStandardForm A b costs = .ok ⟨costs.length, A.length, (standardRows A b costs).flatten.toArray⟩ := by
  have hstored := @ofRows_of_full (standardRows A b costs) costs.length (List.cons_ne_nil _ _)
    fun row => length_of_mem_standardRows hA
  rw [length_standardRows hb, Nat.add_sub_cancel] at hstored
  rw [ofStandardForm, if_pos hb.symm, constraintRows_of_full hA]
  exact hstored

/-- A wrong number of right-hand sides is reported. -/
theorem ofStandardForm_of_length_ne (hb : b.length ≠ A.length) :
    ofStandardForm A b costs = .error (.dimension .rightHandSide A.length b.length) := by
  rw [ofStandardForm, if_neg hb.symm]

/-- The first wrong length of a row is reported. -/
theorem ofStandardForm_of_wrong (hb : b.length = A.length) {before after : List ℕ} {found : ℕ}
    (hlengths : A.map List.length = before ++ found :: after) (hbefore : ∀ n ∈ before, n = costs.length)
    (hfound : found ≠ costs.length) :
    ofStandardForm A b costs = .error (.dimension .constraintRow costs.length found) := by
  rw [ofStandardForm, if_pos hb.symm, constraintRows_of_wrong hlengths hbefore hfound hb.ge]
  rfl

/-- The lengths of a program that is laid out agree. -/
theorem lengths_of_ofStandardForm (h : ofStandardForm A b costs = .ok T) :
    b.length = A.length ∧ ∀ row ∈ A, row.length = costs.length := by
  by_cases hb : b.length = A.length
  · refine ⟨hb, ?_⟩
    rcases forall_or_first (· = costs.length) (A.map List.length) with
      hall | ⟨before, found, after, hlengths, hbefore, hfound⟩
    · simpa using hall
    · rw [ofStandardForm_of_wrong hb hlengths hbefore hfound] at h
      cases h
  · rw [ofStandardForm_of_length_ne hb] at h
    cases h

/-- A tableau in standard form is well shaped; it holds the coefficients and a zero. -/
theorem laidOut_of_ofStandardForm (h : ofStandardForm A b costs = .ok T) :
    T.Shaped ∧ T.constraints = A.length ∧ T.columns = costs.length ∧
      ∀ a ∈ T.entries, a = Fraction.zero ∨ a ∈ costs ∨ a ∈ b ∨ ∃ row ∈ A, a ∈ row := by
  rcases lengths_of_ofStandardForm h with ⟨hb, hA⟩
  rw [ofStandardForm_of_lengths hb hA] at h
  cases h
  refine ⟨?_, rfl, rfl, fun a ha => ?_⟩
  · have hsize := length_flatten_of_full fun row => @length_of_mem_standardRows A b costs hA row
    rw [length_standardRows hb] at hsize
    simpa [Shaped, width] using hsize
  · rcases List.mem_flatten.mp (List.mem_toArray.mp ha) with ⟨row, hrow, ha⟩
    rcases mem_standardRows hrow with rfl | ⟨given, hgiven, rhs, hrhs, rfl⟩
    · exact (List.mem_cons.mp ha).imp_right Or.inl
    · rcases List.mem_cons.mp ha with rfl | ha
      · exact Or.inr (Or.inr (Or.inl hrhs))
      · exact Or.inr (Or.inr (Or.inr ⟨given, hgiven, ha⟩))

/-! ## Entries -/

/-- The tableau of "minimize `c x` subject to `A x = b`", entry by entry. -/
structure StandardForm (A : List (List Fraction)) (b costs : List Fraction) (T : Tableau) : Prop where
  shaped : T.Shaped
  constraints : T.constraints = A.length
  columns : T.columns = costs.length
  corner : T.get 0 0 = .ok Fraction.zero
  objective : ∀ j a, costs[j]? = some a → T.get 0 (j + 1) = .ok a
  rightHandSide : ∀ i a, b[i]? = some a → T.get (i + 1) 0 = .ok a
  matrix : ∀ i row j a, A[i]? = some row → row[j]? = some a → T.get (i + 1) (j + 1) = .ok a

/-- A program has one tableau. -/
theorem StandardForm.eq {U : Tableau} (hb : b.length = A.length) (hA : ∀ row ∈ A, row.length = costs.length)
    (hT : StandardForm A b costs T) (hU : StandardForm A b costs U) : T = U := by
  apply hT.shaped.eq_of_get hU.shaped (hU.constraints.trans hT.constraints.symm)
    (hU.columns.trans hT.columns.symm)
  intro i hi j hj
  rw [hT.constraints] at hi
  rw [hT.columns] at hj
  cases i with
  | zero =>
      cases j with
      | zero => rw [hT.corner, hU.corner]
      | succ j =>
          have hc := List.getElem?_eq_getElem (Nat.lt_of_succ_le hj)
          rw [hT.objective j _ hc, hU.objective j _ hc]
  | succ i =>
      have hrow := List.getElem?_eq_getElem (Nat.lt_of_succ_le hi)
      cases j with
      | zero =>
          have hrhs := List.getElem?_eq_getElem (hb ▸ Nat.lt_of_succ_le hi : i < b.length)
          rw [hT.rightHandSide i _ hrhs, hU.rightHandSide i _ hrhs]
      | succ j =>
          have hentry := List.getElem?_eq_getElem
            ((hA _ (List.mem_of_getElem? hrow)).symm ▸ Nat.lt_of_succ_le hj : j < A[i].length)
          rw [hT.matrix i _ j _ hrow hentry, hU.matrix i _ j _ hrow hentry]

end Tableau
end ExactSimplex
