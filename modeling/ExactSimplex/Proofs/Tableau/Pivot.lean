import ExactSimplex.Proofs.Calc
import ExactSimplex.Proofs.Tableau.Values
import ExactSimplex.Tableau.Pivot

/-!
# The values after a pivot

In exact arithmetic a pivot is one formula for every entry: the pivot row is divided by the pivot
element, and from every other row that the elimination reaches the multiple of the new pivot row is
subtracted that makes the pivot column vanish.

Main results:

- Theorem {lit}`Tableau.Represents.eliminateRows`: an elimination over a range of rows.
- Theorem {lit}`Tableau.Represents.pivot`: a pivot on a tableau never fails and is the pivot on its
  numbers.
-/

namespace ExactSimplex

open Fraction

/-- The rows that an elimination changes, the pivot row apart. -/
def Elimination.reaches : Elimination → ℕ → Prop
  | .all, _ => True
  | .row index, i => i = index

instance (e : Elimination) (i : ℕ) : Decidable (e.reaches i) :=
  match e with
  | .all => inferInstanceAs (Decidable True)
  | .row _ => inferInstanceAs (Decidable (_ = _))

/-- The numbers after a pivot on the entry of row `t` and column `h`. -/
def Values.pivot (M : Values) (h t : ℕ) (e : Elimination) : Values := fun i j =>
  if i = t then M t j / M t h
  else if e.reaches i then M i j - M i h * (M t j / M t h)
  else M i j

/-- The pivot row is divided by the element. -/
theorem Values.pivot_self (M : Values) (h t j : ℕ) (e : Elimination) :
    M.pivot h t e t j = M t j / M t h :=
  if_pos rfl

/-- Every other row loses a multiple of the scaled pivot row. -/
theorem Values.pivot_of_ne (M : Values) (h j : ℕ) {t i : ℕ} (hit : i ≠ t) :
    M.pivot h t .all i j = M i j - M i h * (M t j / M t h) := by
  rw [Values.pivot, if_neg hit, if_pos (show Elimination.all.reaches i from trivial)]

/-- The pivot column becomes the unit vector of the pivot row. -/
theorem Values.pivot_column {M : Values} {h t : ℕ} (hne : M t h ≠ 0) (i : ℕ) :
    M.pivot h t .all i h = if i = t then 1 else 0 := by
  by_cases hit : i = t
  · rw [hit, if_pos rfl, pivot_self, div_self hne]
  · rw [if_neg hit, pivot_of_ne M h h hit, div_self hne, mul_one, sub_self]

/-- A column that is zero in the pivot row stays. -/
theorem Values.pivot_of_zero {M : Values} {t j : ℕ} (hzero : M t j = 0) (h i : ℕ) (e : Elimination) :
    M.pivot h t e i j = M i j := by
  unfold Values.pivot
  by_cases hit : i = t
  · rw [if_pos hit, hit, hzero, zero_div]
  · rw [if_neg hit, hzero, zero_div, mul_zero, sub_zero, ite_self]

/-- A pivot on the same row that brings a former unit vector of it back undoes the first one. -/
theorem Values.pivot_pivot {M : Values} {h l t i : ℕ} (hne : M t h ≠ 0) (hone : M t l = 1)
    (hunit : M i l = if i = t then 1 else 0) (j : ℕ) :
    (M.pivot h t .all).pivot l t .all i j = M i j := by
  by_cases hit : i = t
  · rw [hit, pivot_self, pivot_self, pivot_self, hone, div_div_div_cancel_right₀ hne, div_one]
  · rw [if_neg hit] at hunit
    rw [pivot_of_ne _ l j hit, pivot_self, pivot_self, pivot_of_ne M h j hit, pivot_of_ne M h l hit,
      hone, hunit]
    field_simp
    ring

namespace Tableau

/-! ## Rows -/

/-- A stored row is divided entry by entry. -/
theorem mapM_div_storedRow (n : ℕ) (f : ℕ → ℚ) (c : ℚ) :
    ((storedRow n f).mapM fun entry => Fraction.div .exact entry (ofRat c)) =
      .ok (storedRow n fun j => f j / c) := by
  have hdiv : ∀ a ∈ storedRow n f,
      Fraction.div .exact a (ofRat c) = .ok (ofRat (a.toRat / c)) := by
    intro a ha
    rcases List.mem_map.mp ha with ⟨j, -, rfl⟩
    rw [div_ofRat, toRat_ofRat]
  rw [Calc.mapM_eq_ok hdiv]
  simp [storedRow]

/-- Subtracting a multiple of a row acts on the numbers at every position. -/
theorem subtractMultiple_map (f g : ℕ → ℚ) (c : ℚ) (positions : List ℕ) :
    subtractMultiple .exact (ofRat c) (positions.map fun j => ofRat (f j))
        (positions.map fun j => ofRat (g j)) =
      .ok (positions.map fun j => ofRat (f j - c * g j)) := by
  induction positions with
  | nil => rfl
  | cons j positions ih =>
      simp only [List.map_cons, subtractMultiple, mul_ofRat, sub_ofRat, ih, bind, Except.bind, pure,
        Except.pure]

/-- A multiple of a stored row is subtracted entry by entry. -/
theorem subtractMultiple_storedRow (n : ℕ) (f g : ℕ → ℚ) (c : ℚ) :
    subtractMultiple .exact (ofRat c) (storedRow n f) (storedRow n g) =
      .ok (storedRow n fun j => f j - c * g j) :=
  subtractMultiple_map f g c (List.range (n + 1))

/-! ## The steps of a pivot -/

variable {T : Tableau} {m n : ℕ} {M : Values}

/-- Scaling divides the numbers of one row. -/
theorem Represents.scaleRow (hT : T.Represents m n M) {t : ℕ} (ht : t ≤ m) (c : ℚ) :
    ∃ U, T.scaleRow .exact t (ofRat c) = .ok U ∧
      U.Represents m n (Function.update M t fun j => M t j / c) := by
  refine ⟨T.setRow t (storedRow n fun j => M t j / c), ?_, hT.setRow ht ?_⟩
  · unfold Tableau.scaleRow
    rw [hT.row ht]
    simp only [bind, Except.bind, mapM_div_storedRow, pure, Except.pure]
  · intro j hj
    rw [hT.eq_zero_of_lt hj, zero_div]

/-- The row that is left when a multiple of the numbers `g` is subtracted from row `i` so that column
`h` vanishes. -/
theorem Represents.eliminateRow (hT : T.Represents m n M) {h t i : ℕ} (hh : h ≤ n) (hi : i ≤ m)
    {g : ℕ → ℚ} (hg : ∀ j, n < j → g j = 0) :
    ∃ U, T.eliminateRow .exact h t (storedRow n g) i = .ok U ∧
      U.Represents m n fun r j =>
        if r = i ∧ r ≠ t then M r j - M r h * g j else M r j := by
  have hget := hT.get hi hh
  by_cases hit : i = t
  · subst hit
    refine ⟨T, ?_, ?_⟩
    · simp [Tableau.eliminateRow, hget, bind, Except.bind, pure, Except.pure]
    · refine hT.congr fun r j => ?_
      rw [if_neg (fun hr => hr.2 hr.1)]
  · by_cases hzero : M i h = 0
    · refine ⟨T, ?_, ?_⟩
      · simp [Tableau.eliminateRow, hget, hzero, bind, Except.bind, pure, Except.pure]
      · refine hT.congr fun r j => ?_
        split
        · next hr => rw [hr.1, hzero, zero_mul, sub_zero]
        · rfl
    · refine ⟨T.setRow i (storedRow n fun j => M i j - M i h * g j), ?_, ?_⟩
      · unfold Tableau.eliminateRow
        simp only [hget, bind, Except.bind, hit, isZero_ofRat, hzero, decide_false, or_self,
          Bool.false_eq_true, if_false, hT.row hi, subtractMultiple_storedRow, pure, Except.pure]
      · have hbeyond : ∀ j, n < j → M i j - M i h * g j = 0 := fun j hj => by
          rw [hT.eq_zero_of_lt hj, hg j hj, mul_zero, sub_zero]
        refine (hT.setRow hi hbeyond).congr fun r j => ?_
        by_cases hr : r = i
        · subst hr
          rw [Function.update_self, if_pos ⟨rfl, hit⟩]
        · rw [Function.update_of_ne hr, if_neg (fun h => hr h.1)]

/-- Every row of the range loses its multiple of `g`, by induction on the number of rows: the rows
after the first one are still as they were when their turn comes. -/
theorem Represents.eliminateRows (hT : T.Represents m n M) {h t : ℕ} (hh : h ≤ n) (i count : ℕ)
    (hrange : i + count ≤ m + 1) {g : ℕ → ℚ} (hg : ∀ j, n < j → g j = 0) :
    ∃ U, T.eliminateRows .exact h t (storedRow n g) i count = .ok U ∧
      U.Represents m n fun r j =>
        if (i ≤ r ∧ r < i + count) ∧ r ≠ t then M r j - M r h * g j else M r j := by
  induction count generalizing i T M with
  | zero =>
      refine ⟨T, rfl, ?_⟩
      apply hT.congr
      intro r j
      rw [if_neg (by omega)]
  | succ count ih =>
      rcases hT.eliminateRow (t := t) hh (by omega : i ≤ m) hg with ⟨V, hV, hVM⟩
      rcases ih hVM (i + 1) (by omega) with ⟨U, hU, hUM⟩
      refine ⟨U, ?_, ?_⟩
      · rw [Tableau.eliminateRows, hV]
        exact hU
      · refine hUM.congr fun r j => ?_
        by_cases hr : r = i
        · subst hr
          by_cases hrt : r = t <;> simp [hrt]
        · have hiff : (i ≤ r ∧ r < i + (count + 1)) ↔ i + 1 ≤ r ∧ r < i + 1 + count := by omega
          simp [hr, hiff]

/-- In exact arithmetic a pivot never fails, and it is the pivot on the numbers. -/
theorem Represents.pivot (hT : T.Represents m n M) {h t : ℕ} (hh : h ≤ n) (ht : t ≤ m)
    (e : Elimination) (he : ∀ i, e = .row i → i ≤ m) :
    ∃ U, T.pivot .exact h t e = .ok U ∧ U.Represents m n (M.pivot h t e) := by
  rcases hT.scaleRow ht (M t h) with ⟨V, hV, hVM⟩
  set N : Values := Function.update M t fun j => M t j / M t h with hN
  have hrow : V.row t = .ok (storedRow n (N t)) := hVM.row ht
  have hzero : ∀ j, n < j → N t j = 0 := fun j hj => hVM.eq_zero_of_lt hj
  have hNt : ∀ j, N t j = M t j / M t h := fun j => by rw [hN, Function.update_self]
  have hNr : ∀ r, r ≠ t → N r = M r := fun r hr => Function.update_of_ne hr _ _
  -- After the scaling, what is left of the pivot is the elimination.
  have hstart : T.pivot .exact h t e =
      match e with
      | .all => V.eliminateRows .exact h t (storedRow n (N t)) 0 (T.constraints + 1)
      | .row i => V.eliminateRow .exact h t (storedRow n (N t)) i := by
    unfold Tableau.pivot
    simp only [hT.get ht hh, bind, Except.bind, hV, hrow]
    have hsizes := (scaleRow_sizes .exact hV).constraints
    cases e with
    | all => rw [← hsizes]
    | row i => rfl
  rw [hstart]
  cases e with
  | all =>
      rw [hT.constraints]
      rcases hVM.eliminateRows (t := t) hh 0 (m + 1) (by omega) hzero with ⟨U, hU, hUM⟩
      refine ⟨U, hU, hUM.congr fun r j => ?_⟩
      by_cases hr : r = t
      · subst hr
        simp [Values.pivot, hNt]
      · rcases Nat.lt_or_ge m r with hmr | hmr
        · simp [Values.pivot, hr, hNr r hr, Elimination.reaches, hT.eq_zero_of_row_lt hmr]
        · simp [Values.pivot, hr, hNt, hNr r hr, Elimination.reaches, Nat.lt_succ_of_le hmr]
  | row i =>
      rcases hVM.eliminateRow (t := t) hh (he i rfl) hzero with ⟨U, hU, hUM⟩
      refine ⟨U, hU, hUM.congr fun r j => ?_⟩
      by_cases hr : r = t
      · subst hr
        simp [Values.pivot, hNt]
      · by_cases hri : r = i
        · subst hri
          simp [Values.pivot, hr, hNt, hNr r hr, Elimination.reaches]
        · simp [Values.pivot, hr, hri, hNr r hr, Elimination.reaches]

end Tableau
end ExactSimplex
