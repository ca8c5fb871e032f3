import ExactSimplex.Proofs.Tableau.Cells
import ExactSimplex.Proofs.Tableau.Pivot

/-!
# Pivots in any arithmetic

A pivot computes every cell by one quotient, or by one product and one difference.  In the pivot column,
and in every column that is zero in the pivot row, these come out exactly, so a pivot on a nonzero cell
keeps a basis canonical even where all other cells are ruined by wrapped results.

Main results:

- Theorem {lit}`Tableau.Stores.pivot`: a pivot is safe, and how it computes the cells.
- Theorems {lit}`Cells.Pivoted.pivot_column` and {lit}`Cells.Pivoted.cell_of_zero`: the cells that come
  out exactly.
- Theorems {lit}`Cells.Units.pivot` and {lit}`Cells.Canonical.pivot`: a pivot keeps a basis canonical.
-/

namespace ExactSimplex

open Calc Fraction

variable {A : Arithmetic} {T : Tableau} {m n h t : ℕ} {E F : Cells} {e : Elimination} {β : ℕ → ℕ}

/-! ## How the cells are computed -/

/-- Row `new` is row `old` minus a multiple of row `g`, cell by cell; the multiple zero is left out. -/
def RowReduces (A : Arithmetic) (n : ℕ) (factor : Fraction) (g old new : ℕ → Fraction) : Prop :=
  if factor.isZero = true then ∀ j ≤ n, new j = old j
  else ∀ j ≤ n, (Fraction.mul A factor (g j) >>= Fraction.sub A (old j)) = .ok (new j)

/-- How a pivot on the cell of row `t` and column `h` computes the cells. -/
structure Cells.Pivoted (A : Arithmetic) (m n : ℕ) (E F : Cells) (h t : ℕ) (e : Elimination) :
    Prop where
  pivot_row : ∀ j ≤ n, Fraction.div A (E t j) (E t h) = .ok (F t j)
  reached : ∀ i ≤ m, i ≠ t → e.reaches i → RowReduces A n (E i h) (F t) (E i) (F i)
  kept : ∀ i ≤ m, i ≠ t → ¬e.reaches i → ∀ j ≤ n, F i j = E i j

namespace Tableau

/-- Subtracting a multiple of a row goes cell by cell, by induction on the positions. -/
theorem subtractMultiple_eq_mapM (f g : ℕ → Fraction) (factor : Fraction) (positions : List ℕ) :
    subtractMultiple A factor (positions.map f) (positions.map g) =
      positions.mapM fun j => Fraction.mul A factor (g j) >>= Fraction.sub A (f j) := by
  induction positions with
  | nil => rfl
  | cons j positions ih =>
      simp only [List.map_cons, subtractMultiple, ih, List.mapM_cons, bind_assoc]

/-- A safe calculation for every cell of a row yields a row of cells. -/
theorem safe_mapM_range {f : ℕ → Calc Fraction} {R : ℕ → Fraction → Prop}
    (hf : ∀ j ≤ n, Safe A (f j) (R j)) :
    Safe A ((List.range (n + 1)).mapM f) fun row =>
      ∃ g, row = cellRow n g ∧ ∀ j ≤ n, f j = .ok (g j) ∧ R j (g j) := by
  have hrange : ∀ j ∈ List.range (n + 1), Safe A (f j) (R j) := fun j hj =>
    hf j (Nat.le_of_lt_succ (List.mem_range.mp hj))
  refine (Safe.mapM hrange).imp fun row hrow => ?_
  rcases hrow with ⟨g, hg, hcells⟩
  exact ⟨g, hg, fun j hj => hcells j (List.mem_range.mpr (Nat.lt_succ_of_le hj))⟩

namespace Stores

/-- Scaling replaces the cells of one row by their quotients. -/
theorem scaleRow (hA : A.holds 1 = true) (hT : T.Stores A m n E) (ht : t ≤ m) (c : Fraction) :
    Safe A (T.scaleRow A t c) fun U => ∃ f, U.Stores A m n (Function.update E t f) ∧
      ∀ j ≤ n, Fraction.div A (E t j) c = .ok (f j) := by
  unfold Tableau.scaleRow
  rw [hT.row ht]
  refine safe_ok_bind ?_
  rw [cellRow, List.mapM_map]
  refine (safe_mapM_range fun j _ => safe_div hA (E t j) c).bind fun scaled hscaled => ?_
  rcases hscaled with ⟨f, rfl, hf⟩
  exact safe_pure ⟨f, hT.setRow ht fun j hj => (hf j hj).2, fun j hj => (hf j hj).1⟩

/-- Eliminating from a row replaces its cells; the pivot row keeps them. -/
theorem eliminateRow (hA : A.holds 1 = true) (hT : T.Stores A m n E) (hh : h ≤ n) {i : ℕ}
    (hi : i ≤ m) (g : ℕ → Fraction) :
    Safe A (T.eliminateRow A h t (cellRow n g) i) fun U => ∃ f,
      U.Stores A m n (Function.update E i f) ∧ (i = t → f = E i) ∧
        (i ≠ t → RowReduces A n (E i h) g (E i) f) := by
  unfold Tableau.eliminateRow
  rw [hT.get i hi h hh]
  refine safe_ok_bind ?_
  have hsame : T.Stores A m n (Function.update E i (E i)) := by
    rwa [Function.update_eq_self]
  by_cases hit : i = t
  · rw [if_pos (Or.inl hit)]
    exact safe_pure ⟨E i, hsame, fun _ => rfl, fun hne => absurd hit hne⟩
  · by_cases hzero : (E i h).isZero = true
    · rw [if_pos (Or.inr hzero)]
      refine safe_pure ⟨E i, hsame, fun _ => rfl, fun _ => ?_⟩
      rw [RowReduces, if_pos hzero]
      exact fun _ _ => rfl
    · rw [if_neg (not_or.mpr ⟨hit, hzero⟩), hT.row hi]
      refine safe_ok_bind ?_
      rw [cellRow, cellRow, subtractMultiple_eq_mapM]
      have hcell : ∀ j, Safe A (Fraction.mul A (E i h) (g j) >>= Fraction.sub A (E i j))
          (Proper A) := fun j => (safe_mul hA (E i h) (g j)).bind fun p _ => safe_sub hA (E i j) p
      refine (safe_mapM_range fun j _ => hcell j).bind fun row hrow => ?_
      rcases hrow with ⟨f, rfl, hf⟩
      refine safe_pure ⟨f, hT.setRow hi fun j hj => (hf j hj).2, fun hit' => absurd hit' hit,
        fun _ => ?_⟩
      rw [RowReduces, if_neg hzero]
      exact fun j hj => (hf j hj).1

/-- Every row of the range but the pivot row is reduced, by induction on the number of rows. -/
theorem eliminateRows (hA : A.holds 1 = true) (hT : T.Stores A m n E) (hh : h ≤ n) (i count : ℕ)
    (hrange : i + count ≤ m + 1) (g : ℕ → Fraction) :
    Safe A (T.eliminateRows A h t (cellRow n g) i count) fun U => ∃ F, U.Stores A m n F ∧
      (∀ r, i ≤ r → r < i + count → r ≠ t → RowReduces A n (E r h) g (E r) (F r)) ∧
        ∀ r, (r < i ∨ i + count ≤ r ∨ r = t) → F r = E r := by
  induction count generalizing i T E with
  | zero => exact safe_pure ⟨E, hT, fun r _ _ => by omega, fun _ _ => rfl⟩
  | succ count ih =>
      refine (hT.eliminateRow hA (t := t) hh (by omega : i ≤ m) g).bind fun V hV => ?_
      rcases hV with ⟨f, hV, hself, hreduced⟩
      refine (ih hV (i + 1) (by omega)).imp fun U hU => ?_
      rcases hU with ⟨F, hU, hrows, hkept⟩
      refine ⟨F, hU, fun r hr hlt hrt => ?_, fun r hr => ?_⟩
      · by_cases hri : r = i
        · subst hri
          rw [hkept r (Or.inl (Nat.lt_succ_self r)), Function.update_self]
          exact hreduced hrt
        · have hrow := hrows r (by omega) (by omega) hrt
          rwa [Function.update_of_ne hri] at hrow
      · by_cases hri : r = i
        · subst hri
          have hrt : r = t := by omega
          rw [hkept r (Or.inl (Nat.lt_succ_self r)), Function.update_self, hself hrt]
        · rw [hkept r (by omega), Function.update_of_ne hri]

/-- A pivot is safe, and it computes the cells from those that it finds. -/
theorem pivot (hA : A.holds 1 = true) (hT : T.Stores A m n E) (hh : h ≤ n) (ht : t ≤ m)
    (e : Elimination) (he : ∀ i, e = .row i → i ≤ m) :
    Safe A (T.pivot A h t e) fun U => ∃ F, U.Stores A m n F ∧ E.Pivoted A m n F h t e := by
  unfold Tableau.pivot
  rw [hT.get t ht h hh]
  refine safe_ok_bind ((hT.scaleRow hA ht (E t h)).with_eq.bind fun V hV => ?_)
  rcases hV with ⟨hscale, g, hV, hg⟩
  rw [hV.row ht, Function.update_self]
  refine safe_ok_bind ?_
  -- `g` is the scaled pivot row; every other row is still as it was.
  have hother : ∀ r, r ≠ t → Function.update E t g r = E r := fun r hr => Function.update_of_ne hr _ _
  cases e with
  | all =>
      have hconstraints : T.constraints = m := hT.constraints
      dsimp only
      rw [(scaleRow_sizes A hscale).constraints, hconstraints]
      refine (hV.eliminateRows hA (t := t) hh 0 (m + 1) (by omega) g).imp fun U hU => ?_
      rcases hU with ⟨F, hU, hrows, hkept⟩
      have hrow : F t = g := by rw [hkept t (Or.inr (Or.inr rfl)), Function.update_self]
      refine ⟨F, hU, fun j hj => ?_, fun i hi hit _ => ?_, fun i hi hit hreach => ?_⟩
      · rw [hrow]
        exact hg j hj
      · have hstep := hrows i (Nat.zero_le i) (by omega) hit
        rwa [hother i hit, ← hrow] at hstep
      · exact absurd trivial hreach
  | row r =>
      refine (hV.eliminateRow hA (t := t) hh (he r rfl) g).imp fun U hU => ?_
      rcases hU with ⟨f, hU, hself, hreduced⟩
      have hrow : Function.update (Function.update E t g) r f t = g := by
        by_cases htr : t = r
        · subst htr
          rw [Function.update_self, hself rfl, Function.update_self]
        · rw [Function.update_of_ne htr, Function.update_self]
      refine ⟨_, hU, fun j hj => ?_, fun i hi hit hreach => ?_, fun i hi hit hreach j hj => ?_⟩
      · rw [hrow]
        exact hg j hj
      · obtain rfl : i = r := hreach
        have hstep := hreduced hit
        rw [hother i hit] at hstep
        rwa [hrow, Function.update_self]
      · have hir : i ≠ r := hreach
        rw [Function.update_of_ne hir, hother i hit]

end Stores
end Tableau

/-! ## The cells that come out exactly -/

namespace Cells

/-- Every column that is basic is a column of the tableau, be it a variable or the right-hand side, and the
unit vector of its row. -/
structure Units (E : Cells) (m n : ℕ) (β : ℕ → ℕ) : Prop where
  basic_le : ∀ i, 1 ≤ i → i ≤ m → β i ≤ n
  unit : ∀ i, 1 ≤ i → i ≤ m → ∀ k ≤ m, E k (β i) = if k = i then Fraction.one else Fraction.zero

/-- The column of every basic variable is the unit vector of its row, and every basic variable is a
column of the tableau. -/
structure Canonical (E : Cells) (m n : ℕ) (β : ℕ → ℕ) : Prop where
  basic_pos : ∀ i, 1 ≤ i → i ≤ m → 1 ≤ β i
  basic_le : ∀ i, 1 ≤ i → i ≤ m → β i ≤ n
  unit : ∀ i, 1 ≤ i → i ≤ m → ∀ k ≤ m, E k (β i) = if k = i then Fraction.one else Fraction.zero

/-- A canonical basis consists of unit vectors. -/
theorem Canonical.units (hE : E.Canonical m n β) : E.Units m n β :=
  ⟨hE.basic_le, hE.unit⟩

/-- The unit vectors of different rows are different columns. -/
theorem Units.basic_injective (hE : E.Units m n β) {i k : ℕ} (hi : 1 ≤ i) (him : i ≤ m)
    (hk : 1 ≤ k) (hkm : k ≤ m) (h : β i = β k) : i = k := by
  have hone := hE.unit i hi him i him
  rw [h, hE.unit k hk hkm i him, if_pos rfl] at hone
  by_contra hne
  rw [if_neg hne] at hone
  cases hone

/-- Different rows have different basic variables. -/
theorem Canonical.basic_injective (hE : E.Canonical m n β) {i k : ℕ} (hi : 1 ≤ i) (him : i ≤ m)
    (hk : 1 ≤ k) (hkm : k ≤ m) (h : β i = β k) : i = k :=
  hE.units.basic_injective hi him hk hkm h

/-- The cells of a basic column are zeros and ones. -/
theorem Units.unit_cases (hE : E.Units m n β) {i k : ℕ} (hi : 1 ≤ i) (him : i ≤ m)
    (hk : k ≤ m) : E k (β i) = Fraction.zero ∨ E k (β i) = Fraction.one := by
  rw [hE.unit i hi him k hk]
  split
  · exact Or.inr rfl
  · exact Or.inl rfl

namespace Pivoted

variable (hA : A.holds 1 = true) (hp : E.Pivoted A m n F h t e)
  (hproper : ∀ i ≤ m, ∀ j ≤ n, Proper A (E i j))

include hA hp hproper

/-- The pivot column becomes the unit vector of the pivot row, as far as the elimination reaches. -/
theorem pivot_column (hh : h ≤ n) (ht : t ≤ m) (hne : (E t h).isZero = false) :
    F t h = Fraction.one ∧ ∀ i ≤ m, i ≠ t → e.reaches i → F i h = Fraction.zero := by
  have hone : F t h = Fraction.one :=
    (safe_div_self hA (hproper t ht h hh) hne).of_eq_ok (hp.pivot_row h hh)
  refine ⟨hone, fun i hi hit hreach => ?_⟩
  have hrow := hp.reached i hi hit hreach
  by_cases hzero : (E i h).isZero = true
  · rw [RowReduces, if_pos hzero] at hrow
    rw [hrow h hh]
    exact (hproper i hi h hh).isZero_iff.mp hzero
  · rw [RowReduces, if_neg hzero] at hrow
    have hcell := hrow h hh
    rw [hone] at hcell
    exact (safe_sub_mul_one hA (hproper i hi h hh) (Bool.eq_false_iff.mpr hzero)).of_eq_ok hcell

/-- A column that is zero in the pivot row keeps its zeros and ones. -/
theorem cell_of_zero (hh : h ≤ n) (ht : t ≤ m) {c : ℕ} (hc : c ≤ n) (hzero : E t c = Fraction.zero) :
    F t c = Fraction.zero ∧ ∀ i ≤ m, i ≠ t → (E i c = Fraction.zero ∨ E i c = Fraction.one) →
      F i c = E i c := by
  have hrowZero : F t c = Fraction.zero := by
    have hcell := hp.pivot_row c hc
    rw [hzero] at hcell
    exact (safe_zero_div hA (hproper t ht h hh)).of_eq_ok hcell
  refine ⟨hrowZero, fun i hi hit hunit => ?_⟩
  by_cases hreach : e.reaches i
  · have hrow := hp.reached i hi hit hreach
    by_cases hfactor : (E i h).isZero = true
    · rw [RowReduces, if_pos hfactor] at hrow
      exact hrow c hc
    · rw [RowReduces, if_neg hfactor] at hrow
      rcases bind_eq_ok.mp (hrow c hc) with ⟨product, hproduct, hcell⟩
      rw [hrowZero] at hproduct
      obtain rfl := (safe_mul_zero hA (hproper i hi h hh)).of_eq_ok hproduct
      exact (safe_sub_zero hA hunit).of_eq_ok hcell
  · exact hp.kept i hi hit hreach c hc

end Pivoted

/-- A pivot on a nonzero cell keeps the unit vectors when its column enters. -/
theorem Units.pivot (hE : E.Units m n β) (hA : A.holds 1 = true)
    (hp : E.Pivoted A m n F h t .all) (hproper : ∀ i ≤ m, ∀ j ≤ n, Proper A (E i j))
    (hhn : h ≤ n) (htm : t ≤ m) (hne : (E t h).isZero = false) :
    F.Units m n (Function.update β t h) := by
  have hentering := hp.pivot_column hA hproper hhn htm hne
  refine ⟨fun i hi him => ?_, fun i hi him k hk => ?_⟩
  · by_cases hit : i = t
    · rwa [hit, Function.update_self]
    · rw [Function.update_of_ne hit]
      exact hE.basic_le i hi him
  · by_cases hit : i = t
    · rw [hit, Function.update_self]
      by_cases hkt : k = t
      · rw [hkt, if_pos rfl]
        exact hentering.1
      · rw [if_neg hkt]
        exact hentering.2 k hk hkt trivial
    · -- The column of another basic variable is zero in the pivot row, so it stays.
      have hunit := hE.unit i hi him
      have hzero : E t (β i) = Fraction.zero := by
        rw [hunit t htm, if_neg (Ne.symm hit)]
      have hstays := hp.cell_of_zero hA hproper hhn htm (hE.basic_le i hi him) hzero
      rw [Function.update_of_ne hit]
      by_cases hkt : k = t
      · rw [hkt, hstays.1, if_neg (Ne.symm hit)]
      · rw [hstays.2 k hk hkt (hE.unit_cases hi him hk), hunit k hk]

/-- A pivot on a nonzero cell keeps the basis canonical when its column enters. -/
theorem Canonical.pivot (hE : E.Canonical m n β) (hA : A.holds 1 = true)
    (hp : E.Pivoted A m n F h t .all) (hproper : ∀ i ≤ m, ∀ j ≤ n, Proper A (E i j)) (hh : 1 ≤ h)
    (hhn : h ≤ n) (htm : t ≤ m) (hne : (E t h).isZero = false) :
    F.Canonical m n (Function.update β t h) := by
  have hunits := hE.units.pivot hA hp hproper hhn htm hne
  refine ⟨fun i hi him => ?_, hunits.basic_le, hunits.unit⟩
  by_cases hit : i = t
  · rwa [hit, Function.update_self]
  · rw [Function.update_of_ne hit]
    exact hE.basic_pos i hi him

end Cells
end ExactSimplex
