import ExactSimplex.Proofs.Simplex.Artificial
import ExactSimplex.Proofs.Simplex.SoundState

/-!
# Phase one in any arithmetic

Phase one changes the tableau four times: it adds the artificial columns, makes them vanish in the
objective row, swaps artificial variables for columns of the program, and copies the solved rows back to
make their basic columns vanish in the objective row again.  All of these leave the basic columns unit
vectors in the constraint rows, so phase one hands over a sound state.

Main results:

- Theorem {lit}`Tableau.Stores.safe_priceOut`: pricing out makes the reduced costs of the basic columns
  zero one after the other.
- Theorem {lit}`Tableau.Stores.safe_artificialStart`: phase one starts in a sound state.
- Theorem {lit}`SoundState.safe_driveOut`: driving out artificial variables keeps the state sound.
- Theorem {lit}`Tableau.Stores.safe_phaseOne`: a feasible state that phase one finds is sound.
-/

namespace ExactSimplex

open Calc Fraction

variable {A : Arithmetic} {T S : Tableau} {B : Basis} {m n N t : ℕ} {E F G : Cells} {β : ℕ → ℕ}

/-! ## Pricing out -/

/-- Among the constraint rows the column of every basic variable is the unit vector of its row. -/
structure Cells.UnitRows (E : Cells) (m n : ℕ) (β : ℕ → ℕ) : Prop where
  basic_pos : ∀ i, 1 ≤ i → i ≤ m → 1 ≤ β i
  basic_le : ∀ i, 1 ≤ i → i ≤ m → β i ≤ n
  unit : ∀ i, 1 ≤ i → i ≤ m → ∀ k, 1 ≤ k → k ≤ m →
    E k (β i) = if k = i then Fraction.one else Fraction.zero

namespace Cells.UnitRows

/-- Unit vectors among the constraint rows whose reduced costs are zero make a basis canonical. -/
theorem canonical (hE : E.UnitRows m n β)
    (hcosts : ∀ i, 1 ≤ i → i ≤ m → E 0 (β i) = Fraction.zero) : E.Canonical m n β where
  basic_pos := hE.basic_pos
  basic_le := hE.basic_le
  unit := by
    intro i hi him k hk
    rcases Nat.eq_zero_or_pos k with rfl | hpos
    · rw [hcosts i hi him, if_neg (by omega)]
    · exact hE.unit i hi him k hpos hk

/-- The basic column of a row is one in this row. -/
theorem unit_self (hE : E.UnitRows m n β) (ht : 1 ≤ t) (htm : t ≤ m) : E t (β t) = Fraction.one := by
  rw [hE.unit t ht htm t ht htm, if_pos rfl]

/-- The basic column of another row is zero in this row. -/
theorem unit_of_ne (hE : E.UnitRows m n β) {i : ℕ} (hi : 1 ≤ i) (him : i ≤ m) (ht : 1 ≤ t)
    (htm : t ≤ m) (hit : i ≠ t) : E t (β i) = Fraction.zero := by
  rw [hE.unit i hi him t ht htm, if_neg (Ne.symm hit)]

section Pivot

variable (hE : E.UnitRows m n β) (hA : A.holds 1 = true)
  (hp : E.Pivoted A m n F (β t) t (.row 0)) (hproper : ∀ i ≤ m, ∀ j ≤ n, Proper A (E i j))
  (ht : 1 ≤ t) (htm : t ≤ m)

include hE hA hp hproper ht htm

/-- A pivot on a basic cell that reaches the objective row alone keeps the unit vectors. -/
theorem pivot : F.UnitRows m n β := by
  have hentering := hp.pivot_column hA hproper (hE.basic_le t ht htm) htm
    (by rw [hE.unit_self ht htm]; rfl)
  refine ⟨hE.basic_pos, hE.basic_le, fun i hi him k hk hkm => ?_⟩
  by_cases hkt : k = t
  · subst hkt
    by_cases hik : i = k
    · rw [hik, if_pos rfl]
      exact hentering.1
    · rw [if_neg (Ne.symm hik)]
      exact (hp.cell_of_zero hA hproper (hE.basic_le k ht htm) htm (hE.basic_le i hi him)
        (hE.unit_of_ne hi him ht htm hik)).1
  · have hkept : ¬(Elimination.row 0).reaches k := fun h => absurd h (by
      show k ≠ 0
      omega)
    rw [hp.kept k hkm hkt hkept _ (hE.basic_le i hi him)]
    exact hE.unit i hi him k hk hkm

/-- The reduced cost of its column becomes zero, and those of other basic columns stay zero. -/
theorem pivot_cost {i : ℕ} (hi : 1 ≤ i) (him : i ≤ m) (hcost : i = t ∨ E 0 (β i) = Fraction.zero) :
    F 0 (β i) = Fraction.zero := by
  have hobjective : 0 ≠ t := by omega
  by_cases hit : i = t
  · subst hit
    exact (hp.pivot_column hA hproper (hE.basic_le i hi him) him
      (by rw [hE.unit_self hi him]; rfl)).2 0 (Nat.zero_le m) hobjective rfl
  · have hzero := hcost.resolve_left hit
    rw [(hp.cell_of_zero hA hproper (hE.basic_le t ht htm) htm (hE.basic_le i hi him)
      (hE.unit_of_ne hi him ht htm hit)).2 0 (Nat.zero_le m) hobjective (Or.inl hzero), hzero]

end Pivot

end Cells.UnitRows

namespace Tableau.Stores

/-- Pricing out makes the reduced costs of the basic variables zero one after the other, by induction on
the number of rows that are left. -/
theorem safe_priceOut (hA : A.holds 1 = true) (hT : T.Stores A m n E) {column : ℕ → Calc ℕ}
    (hcolumn : ∀ i, 1 ≤ i → i ≤ m → column i = .ok (β i)) (hE : E.UnitRows m n β) (row count : ℕ)
    (hrow : 1 ≤ row) (hcount : row + count ≤ m + 1)
    (hdone : ∀ i, 1 ≤ i → i < row → E 0 (β i) = Fraction.zero) :
    Safe A (Tableau.priceOut A column row count T) fun U => ∃ F, U.Stores A m n F ∧
      F.UnitRows m n β ∧ ∀ i, 1 ≤ i → i < row + count → F 0 (β i) = Fraction.zero := by
  induction count generalizing row T E with
  | zero => exact safe_pure ⟨E, hT, hE, hdone⟩
  | succ count ih =>
      have hrowm : row ≤ m := by omega
      unfold Tableau.priceOut
      rw [hcolumn row hrow hrowm]
      refine safe_ok_bind ?_
      refine (hT.pivot hA (hE.basic_le row hrow hrowm) hrowm (.row 0) fun i hi => by
        cases hi
        exact Nat.zero_le m).bind fun V hV => ?_
      rcases hV with ⟨F, hV, hp⟩
      have hF := hE.pivot hA hp hT.proper hrow hrowm
      refine (ih hV hF (row + 1) (by omega) (by omega) fun i hi hlt => ?_).imp fun U hU => ?_
      · apply hE.pivot_cost hA hp hT.proper hrow hrowm hi (by omega)
        by_cases hir : i = row
        · exact Or.inl hir
        · exact Or.inr (hdone i hi (by omega))
      · rcases hU with ⟨G, hU, hG, hcosts⟩
        exact ⟨G, hU, hG, fun i hi hlt => hcosts i hi (by omega)⟩

end Tableau.Stores

/-! ## The artificial tableau -/

/-- A row followed by the coefficients of the artificial variables. -/
def Cells.artificialRow (n i : ℕ) (f : ℕ → Fraction) : ℕ → Fraction := fun j =>
  if j ≤ n then f j else if j = n + i then Fraction.one else Fraction.zero

/-- The cells of the artificial tableau, of rows that have nonnegative right-hand sides. -/
def Cells.artificial (E : Cells) (n : ℕ) : Cells := fun i j =>
  if i = 0 then if j ≤ n then Fraction.zero else Fraction.one else Cells.artificialRow n i (E i) j

namespace Cells

/-- The columns of the artificial variables are unit vectors. -/
theorem artificial_unit {i k : ℕ} (hi : 1 ≤ i) (hk : 1 ≤ k) :
    E.artificial n k (n + i) = if k = i then Fraction.one else Fraction.zero := by
  rw [artificial, if_neg (by omega), artificialRow, if_neg (by omega)]
  have hiff : n + i = n + k ↔ k = i := by omega
  simp only [hiff]

/-- The cells of the artificial program are proper. -/
theorem proper_artificial (hA : A.holds 1 = true)
    (hE : ∀ i, 1 ≤ i → i ≤ m → ∀ j ≤ n, Proper A (E i j)) {i : ℕ} (him : i ≤ m) (j : ℕ) :
    Proper A (E.artificial n i j) := by
  unfold artificial artificialRow
  split
  · split
    · exact .zero hA
    · exact .one hA
  · split
    · next hj => exact hE i (by omega) him j hj
    · split
      · exact .one hA
      · exact .zero hA

end Cells

namespace Tableau

/-- A constraint row, with the other sign if its right-hand side is negative. -/
def orientedRow (A : Arithmetic) (T : Tableau) (i : ℕ) : Calc (List Fraction) := do
  let value ← T.rhs i
  let entries ← T.row i
  if value.isNegative then entries.mapM (Fraction.neg A) else pure entries

/-- The rows of the artificial tableau are found one by one, by induction on their number. -/
theorem artificialRows_eq_mapM (T : Tableau) (row count : ℕ) :
    T.artificialRows A row count = (List.range' row count).mapM fun i =>
      (· ++ unitRowEntries (i - 1) T.constraints) <$> T.orientedRow A i := by
  induction count generalizing row with
  | zero => rfl
  | succ count ih =>
      rw [List.range'_succ, List.mapM_cons, ← ih (row + 1), artificialRows]
      generalize T.artificialRows A (row + 1) count = rest
      unfold orientedRow
      cases T.rhs row with
      | error fault => rfl
      | ok value =>
          cases T.row row with
          | error fault => rfl
          | ok entries =>
              by_cases hneg : value.isNegative = true
              · simp only [hneg, if_true, bind, Except.bind]
                cases entries.mapM (Fraction.neg A) <;> rfl
              · simp only [hneg, bind, Except.bind]
                rfl

/-- A row of the artificial program is the row with the entries of its artificial variables. -/
theorem cellRow_artificialRow {i : ℕ} (hi : 1 ≤ i) (f : ℕ → Fraction) :
    cellRow (n + m) (Cells.artificialRow n i f) = cellRow n f ++ unitRowEntries (i - 1) m := by
  rw [cellRow_add]
  congr 1
  · apply cellRow_congr
    intro j hj
    rw [Cells.artificialRow, if_pos hj]
  · unfold unitRowEntries
    apply List.map_congr_left
    intro k _
    have hiff : n + 1 + k = n + i ↔ k = i - 1 := by omega
    rw [Cells.artificialRow, if_neg (by omega)]
    simp only [hiff]

namespace Stores

/-- A row of proper cells is negated safely. -/
theorem safe_mapM_neg (hA : A.holds 1 = true) {f : ℕ → Fraction} (hf : ∀ j ≤ n, Proper A (f j)) :
    Safe A ((cellRow n f).mapM (Fraction.neg A)) fun row =>
      ∃ g, row = cellRow n g ∧ ∀ j ≤ n, Proper A (g j) := by
  rw [cellRow, List.mapM_map]
  refine (safe_mapM_range fun j hj => safe_neg hA (hf j hj)).imp fun row hrow => ?_
  rcases hrow with ⟨g, hg, hcells⟩
  exact ⟨g, hg, fun j hj => (hcells j hj).2.1⟩

/-- An oriented row has proper cells. -/
theorem safe_orientedRow (hA : A.holds 1 = true) (hT : T.Stores A m n E) {i : ℕ} (him : i ≤ m) :
    Safe A (T.orientedRow A i) fun row => ∃ f, row = cellRow n f ∧ ∀ j ≤ n, Proper A (f j) := by
  unfold orientedRow
  rw [hT.rhs him, hT.row him]
  refine safe_ok_bind (safe_ok_bind ?_)
  split
  · exact safe_mapM_neg hA (hT.proper i him)
  · exact safe_pure ⟨E i, rfl, hT.proper i him⟩

/-- The rows of the artificial program have proper cells and unit vectors. -/
theorem safe_artificialRows (hA : A.holds 1 = true) (hT : T.Stores A m n E) :
    Safe A (T.artificialRows A 1 m) fun rows => ∃ G : Cells,
      rows = (List.range' 1 m).map (fun i => cellRow (n + m) (G.artificial n i)) ∧
        ∀ i, 1 ≤ i → i ≤ m → ∀ j ≤ n, Proper A (G i j) := by
  rw [artificialRows_eq_mapM, hT.constraints]
  have hrow : ∀ i ∈ List.range' 1 m,
      Safe A ((· ++ unitRowEntries (i - 1) m) <$> T.orientedRow A i) fun row =>
        ∃ f, row = cellRow (n + m) (Cells.artificialRow n i f) ∧ ∀ j ≤ n, Proper A (f j) := by
    intro i hi
    rcases List.mem_range'_1.mp hi with ⟨hi, him⟩
    refine (hT.safe_orientedRow hA (by omega : i ≤ m)).map fun row hrow => ?_
    rcases hrow with ⟨f, rfl, hf⟩
    exact ⟨f, (cellRow_artificialRow hi f).symm, hf⟩
  refine (Safe.mapM hrow).imp fun rows hrows => ?_
  rcases hrows with ⟨g, rfl, hg⟩
  choose! G hG using fun i hi => (hg i hi).2
  refine ⟨G, List.map_congr_left fun i hi => ?_, fun i hi him => (hG i ?_).2⟩
  · rw [(hG i hi).1]
    congr 1
    funext j
    rw [Cells.artificial, if_neg]
    have := List.mem_range'_1.mp hi
    omega
  · exact List.mem_range'_1.mpr ⟨hi, by omega⟩

/-- In the artificial tableau the columns of the artificial variables are unit vectors of the constraint
rows. -/
theorem safe_artificialTableau (hA : A.holds 1 = true) (hT : T.Stores A m n E) :
    Safe A (T.artificialTableau A) fun U => ∃ F, U.Stores A m (n + m) F ∧
      F.UnitRows m (n + m) fun i => n + i := by
  unfold Tableau.artificialTableau
  rw [width, hT.constraints, hT.columns]
  refine (hT.safe_artificialRows hA).bind fun rows hrows => ?_
  rcases hrows with ⟨G, rfl, hG⟩
  refine safe_pure ⟨G.artificial n, ?_, fun i hi _ => by omega, fun i _ him => by omega,
    fun i hi _ k hk _ => Cells.artificial_unit hi hk⟩
  have hcosts : List.replicate (n + 1) Fraction.zero ++ List.replicate m Fraction.one =
      cellRow (n + m) (G.artificial n 0) := by
    rw [cellRow_add]
    congr 1
    · rw [cellRow_congr (g := fun _ => Fraction.zero) fun j hj => by
        rw [Cells.artificial, if_pos rfl, if_pos hj]]
      simp [cellRow, List.map_const']
    · rw [List.map_congr_left (g := fun _ => Fraction.one) fun k _ => by
        rw [Cells.artificial, if_pos rfl, if_neg (by omega)]]
      simp [List.map_const']
  have hrows := stores_of_rows (A := A) (m := m) (n := n + m) (E := G.artificial n)
    fun i him j _ => Cells.proper_artificial hA hG him j
  rwa [List.range_eq_range', List.range'_succ, List.map_cons, List.flatten_cons, ← hcosts] at hrows

/-- The states of pricing out the artificial variables. -/
theorem safe_priceArtificial (hA : A.holds 1 = true) (hT : T.Stores A m n E) {U : Tableau}
    (hU : T.artificialTableau A = .ok U) {count : ℕ} (hcount : count ≤ m) :
    Safe A (Tableau.priceOut A (fun row => pure (T.columns + row)) 1 count U) fun V => ∃ F,
      V.Stores A m (n + m) F ∧ (F.UnitRows m (n + m) fun i => n + i) ∧
        ∀ i, 1 ≤ i → i < 1 + count → F 0 (n + i) = Fraction.zero := by
  rcases (hT.safe_artificialTableau hA).of_eq_ok hU with ⟨F, hF, hunit⟩
  refine hF.safe_priceOut hA (fun i _ _ => ?_) hunit 1 count (Nat.le_refl 1) (by omega)
    fun i hi hlt => by omega
  rw [hT.columns]
  rfl

/-- Phase one starts its primal run in a sound state. -/
theorem safe_artificialStart (hA : A.holds 1 = true) (hT : T.Stores A m n E) {U : Tableau}
    (hU : T.artificialTableau A = .ok U) :
    Safe A (Tableau.priceOut A (fun row => pure (T.columns + row)) 1 T.constraints U) fun V =>
      SoundState A m (n + m) (V, T.artificialBasis) := by
  rw [hT.constraints]
  refine (hT.safe_priceArtificial hA hU (Nat.le_refl m)).imp fun V hV => ?_
  rcases hV with ⟨F, hV, hunit, hcosts⟩
  rcases T.represents_artificialBasis with ⟨hB, hbasic⟩
  rw [hT.constraints, hT.columns] at hbasic
  rw [hT.constraints] at hB
  refine hV.soundState hB ?_
  have hE := hunit.canonical fun i hi him => hcosts i hi (by omega)
  refine ⟨fun i hi him => ?_, fun i hi him => ?_, fun i hi him => ?_⟩
  · rw [hbasic i hi him]
    exact hE.basic_pos i hi him
  · rw [hbasic i hi him]
    exact hE.basic_le i hi him
  · rw [hbasic i hi him]
    exact hE.unit i hi him

end Stores
end Tableau

/-! ## Driving out artificial variables -/

namespace SoundState

variable {s : State}

/-- The first nonzero coefficient of a row. -/
theorem safe_firstNonzero (hs : SoundState A m N s) (htm : t ≤ m) (hnN : n ≤ N) :
    Safe A (firstIndex (fun column => do
      let entry ← s.1.get t column
      pure !entry.isZero) 1 n) fun found =>
        ∀ h, found = some h → 1 ≤ h ∧ h ≤ n ∧ (s.1.cells t h).isZero = false := by
  refine (safe_firstIndex (p := fun h => (s.1.cells t h).isZero = false) fun j _ hj => ?_).imp
    fun found hfound h hh => ?_
  · rw [hs.stores.get t htm j (by omega)]
    exact safe_ok_bind (safe_pure fun h => by simpa using h)
  · have hrange := hfound h hh
    exact ⟨hrange.1, by omega, hrange.2.2⟩

/-- Driving out keeps the state sound, and in the rows that it is through with the basic variables are
columns of the program, by induction on the number of rows that are left. -/
theorem safe_driveOut (hA : A.holds 1 = true) (hnN : n ≤ N) (row count : ℕ) (d : Tableau.Drive)
    (hd : SoundState A m N (d.tableau, d.basis)) (hrow : 1 ≤ row) (hcount : row + count = t)
    (htm : t ≤ m + 1) (hdone : ∀ i, 1 ≤ i → i < row → d.basis.basic i ≤ n) :
    Safe A (Tableau.driveOut A n row count d) fun result =>
      SoundState A m N (result.1.tableau, result.1.basis) ∧
        (result.2 = none → ∀ i, 1 ≤ i → i < t → result.1.basis.basic i ≤ n) := by
  induction count generalizing row d with
  | zero =>
      obtain rfl : row = t := hcount
      exact safe_pure ⟨hd, fun _ => hdone⟩
  | succ count ih =>
      have hrowm : row ≤ m := by omega
      unfold Tableau.driveOut
      rw [hd.basis.inRow hrow hrowm]
      refine safe_ok_bind ?_
      split
      · next hle =>
          refine ih (row + 1) d hd (by omega) (by omega) fun i hi hlt => ?_
          by_cases hir : i = row
          · rwa [hir]
          · exact hdone i hi (by omega)
      · refine (hd.safe_firstNonzero hrowm hnN).bind fun found hfound => ?_
        cases found with
        | none => exact safe_pure ⟨hd, fun hnone => by cases hnone⟩
        | some h =>
            rcases hfound h rfl with ⟨hh, hhn, hne⟩
            have hhN : h ≤ N := hhn.trans hnN
            refine (hd.stores.pivot hA hhN hrowm .all fun i hi => by cases hi).bind fun U hU => ?_
            rcases hU with ⟨F, hU, hpivoted⟩
            -- Column `h` is one of the program, and it takes the place of the artificial variable.
            rcases hd.basis.enter hrow hrowm h with ⟨C, hC, hCβ⟩
            have hbasic : C.basic = Function.update d.basis.basic row h := hCβ.basic
            have hs : SoundState A m N (U, C) := hU.soundState hCβ
              (hd.canonical.pivot hA hpivoted hd.stores.proper hh hhN hrowm hne)
            dsimp only
            rw [hC]
            refine safe_ok_bind (ih (row + 1) ⟨U, C, _⟩ hs (by omega) (by omega) fun i hi hlt => ?_)
            show C.basic i ≤ n
            rw [hbasic]
            by_cases hir : i = row
            · rwa [hir, Function.update_self]
            · rw [Function.update_of_ne hir]
              exact hdone i hi (by omega)

end SoundState

/-! ## Copied rows -/

namespace Tableau.Stores

/-- The copied rows take the place of those of the tableau, by induction on their number. -/
theorem copyRows (hT : T.Stores A m n E) (hS : S.Stores A m N G) (hnN : n ≤ N) (row count : ℕ)
    (hcount : row + count ≤ m + 1) :
    ∃ U, Tableau.copyRows S row count T = .ok U ∧ U.Stores A m n fun i =>
      if row ≤ i ∧ i < row + count then G i else E i := by
  induction count generalizing row T E with
  | zero =>
      refine ⟨T, rfl, hT.congr fun i _ j _ => ?_⟩
      rw [if_neg (by omega)]
  | succ count ih =>
      have hrowm : row ≤ m := by omega
      have hentries : (cellRow N (G row)).take T.width = cellRow n (G row) := by
        rw [width, hT.columns, take_cellRow _ hnN]
      have hset := hT.setRow hrowm fun j hj => hS.proper row hrowm j (by omega)
      rcases ih hset (row + 1) (by omega) with ⟨U, hU, hUG⟩
      refine ⟨U, ?_, hUG.congr fun i _ j _ => ?_⟩
      · simp only [Tableau.copyRows, hS.row hrowm, hentries, bind, Except.bind]
        exact hU
      · by_cases hi : i = row
        · subst hi
          simp
        · have hiff : (row + 1 ≤ i ∧ i < row + 1 + count) ↔ row ≤ i ∧ i < row + (count + 1) := by omega
          simp only [hiff, Function.update_of_ne hi]

/-- The states of pricing out the copied rows. -/
theorem safe_priceCopied (hA : A.holds 1 = true) (hT : T.Stores A m n E) {s : State}
    (hs : SoundState A m N s) (hnN : n ≤ N) (hbasic : ∀ i, 1 ≤ i → i ≤ m → s.2.basic i ≤ n)
    {copied : Tableau} (hcopied : Tableau.copyRows s.1 1 m T = .ok copied) {count : ℕ}
    (hcount : count ≤ m) :
    Safe A (Tableau.priceOut A s.2.inRow 1 count copied) fun V => ∃ F, V.Stores A m n F ∧
      F.UnitRows m n s.2.basic ∧
        ∀ i, 1 ≤ i → i < 1 + count → F 0 (s.2.basic i) = Fraction.zero := by
  rcases hT.copyRows hs.stores hnN 1 m (by omega) with ⟨U, hU, hUcells⟩
  obtain rfl := Except.ok.inj (hcopied.symm.trans hU)
  refine hUcells.safe_priceOut hA (fun i hi him => hs.basis.inRow hi him) ?_ 1 count (Nat.le_refl 1)
    (by omega) fun i hi hlt => by omega
  refine ⟨hs.canonical.basic_pos, hbasic, fun i hi him k hk hkm => ?_⟩
  rw [if_pos ⟨hk, by omega⟩]
  exact hs.canonical.unit i hi him k hkm

/-- Copying the solved rows back and pricing them out leads to a sound state. -/
theorem safe_reprice (hA : A.holds 1 = true) (hT : T.Stores A m n E) {s : State}
    (hs : SoundState A m N s) (hnN : n ≤ N) (hbasic : ∀ i, 1 ≤ i → i ≤ m → s.2.basic i ≤ n) :
    Safe A (Tableau.copyRows s.1 1 m T >>= Tableau.priceOut A s.2.inRow 1 m) fun U =>
      SoundState A m n (U, s.2) := by
  rcases hT.copyRows hs.stores hnN 1 m (by omega) with ⟨copied, hcopied, -⟩
  rw [hcopied]
  refine safe_ok_bind ((hT.safe_priceCopied hA hs hnN hbasic hcopied (Nat.le_refl m)).imp
    fun U hU => ?_)
  rcases hU with ⟨F, hU, hunit, hcosts⟩
  exact hU.soundState hs.basis (hunit.canonical fun i hi him => hcosts i hi (by omega))

/-! ## Phase one -/

/-- Phase one is safe, and a feasible state that it finds is sound. -/
theorem safe_phaseOne (hA : A.holds 1 = true) (hT : T.Stores A m n E) (budget : ℕ) (B : Basis) :
    Safe A (T.phaseOne A budget B) fun run =>
      run.result = .ok .feasible → SoundState A m n (run.tableau, run.basis) := by
  unfold Tableau.phaseOne
  refine (hT.safe_artificialTableau hA).with_eq.bind fun start hstart => ?_
  refine (hT.safe_artificialStart hA hstart.1).bind fun priced hpriced => ?_
  refine ((soundRule_primalRule hA).safe_runStage hA budget hpriced).bind fun run hrun => ?_
  refine (hrun.safe_objectiveValue hA).bind fun residual _ => ?_
  dsimp only
  split
  · exact safe_pure fun hresult => by cases hresult
  · rw [hT.constraints, hT.columns]
    refine (SoundState.safe_driveOut hA (Nat.le_add_right n m) 1 m _ hrun (Nat.le_refl 1) rfl (by omega)
      fun i hi hlt => by omega).bind fun ⟨d, dependent⟩ hd => ?_
    cases dependent with
    | some row => exact safe_pure fun hresult => by cases hresult
    | none =>
        have hbasic : ∀ i, 1 ≤ i → i ≤ m → d.basis.basic i ≤ n := fun i hi him =>
          hd.2 rfl i hi (by omega)
        have hsolved := hT.safe_reprice hA hd.1 (Nat.le_add_right n m) hbasic
        dsimp only
        rw [← bind_assoc]
        refine hsolved.bind fun solved hsolved => ?_
        refine (hsolved.safe_objectiveValue hA).bind fun objective _ => ?_
        exact safe_pure fun _ => hsolved

end Tableau.Stores
end ExactSimplex
