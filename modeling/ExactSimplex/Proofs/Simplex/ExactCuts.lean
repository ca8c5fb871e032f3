import ExactSimplex.Proofs.Fraction.Fractional
import ExactSimplex.Proofs.Program.Cuts
import ExactSimplex.Proofs.Simplex.SoundCuts

/-!
# Cuts are exact in any arithmetic

Of all that a solve computes, the cuts need no room beyond their operands: as long as the denominators of
the source row are positive, every entry of the cut is the exact negated fractional part.  So a cut keeps
its meaning where pivots have long lost theirs: it cuts off the basic point, no integer solution, and its
slack is one more integer variable.

Main results:

- Theorem {lit}`Tableau.safe_exactCutEntries`: the entries of a cut.
- Theorem {lit}`Tableau.Stores.values_cut`: the numbers of the tableau with the cut.
- Theorem {lit}`Tableau.addCut_exact`: a cut is exact and keeps the integer solutions.
-/

namespace ExactSimplex

open Calc Fraction

variable {A : Arithmetic} {T U : Tableau} {B : Basis} {m n r : ℕ} {E : Cells} {f g : ℕ → Fraction}

namespace Tableau

/-! ## The entries of a cut -/

/-- The entries of a cut row are calculated exactly above positive denominators. -/
theorem safe_exactCutEntries (hA : A.holds 1 = true) (hf : ∀ j ≤ n, Proper A (f j) ∧ 0 < (f j).den) :
    Safe A (cutEntries A (cellRow n f)) (· = cellRow n fun j => (f j).cutEntry) := by
  rw [cellRow, cutEntries_eq_mapM]
  refine (safe_mapM_range fun j hj => safe_cutEntry hA (hf j hj).1 (hf j hj).2).imp fun row hrow => ?_
  rcases hrow with ⟨g, rfl, hg⟩
  exact cellRow_congr fun j hj => (hg j hj).2

/-- Without checks the entries of a cut are never refused. -/
theorem exactCutEntries (hA : A.holds 1 = true) (hunchecked : ∀ bits, A ≠ .checked bits)
    (hf : ∀ j ≤ n, Proper A (f j) ∧ 0 < (f j).den) :
    cutEntries A (cellRow n f) = .ok (cellRow n fun j => (f j).cutEntry) := by
  rw [cellRow, cutEntries_eq_mapM]
  refine Calc.mapM_eq_ok fun j hj => ?_
  have hproper := hf j (Nat.le_of_lt_succ (List.mem_range.mp hj))
  exact cutEntry_of_unchecked hA hunchecked hproper.1 hproper.2

/-! ## The numbers after a cut -/

/-- The numbers of a tableau to which a row of exact fractional parts was appended. -/
theorem Stores.values_cut (hT : T.Stores A m n E) (hU : U.Stores A (m + 1) (n + 1) (E.cut m n g))
    (hg : ∀ j ≤ n, (g j).toRat = -Int.fract (E r j).toRat) (hr : r ≤ m) :
    U.values = T.values.cut m n r := by
  have hvalues : ∀ i ≤ m, ∀ j ≤ n, T.values i j = (E i j).toRat := fun i hi j hj =>
    values_of_get (hT.columns ▸ hj) (hT.get i hi j hj)
  funext i j
  rcases Nat.lt_or_ge (n + 1) j with hj | hj
  · rw [values_of_columns_lt (hU.columns ▸ hj), Values.cut, if_neg (by omega : ¬j ≤ n),
      if_neg (by omega : ¬j ≤ n), if_neg (by omega : ¬j = n + 1), ite_self]
  rcases Nat.lt_or_ge (m + 1) i with hi | hi
  · -- Both sides show the zeros below the data.
    have hbelow : U.values i j = (U.cells i j).toRat := if_pos (hU.columns ▸ hj)
    have hzero : ∀ j ≤ n, T.values i j = (T.cells i j).toRat := fun j hj => if_pos (hT.columns ▸ hj)
    rw [hbelow, hU.cells_of_lt hi, Values.cut, if_neg (by omega)]
    split
    · next hjn => rw [hzero j hjn, hT.cells_of_lt (by omega)]
    · exact toRat_zero
  · rw [values_of_get (hU.columns ▸ hj) (hU.get i hi j hj), Cells.cut, Values.cut]
    by_cases hlast : i = m + 1
    · rw [if_pos hlast, if_pos hlast]
      by_cases hjn : j ≤ n
      · rw [if_pos hjn, if_pos hjn, hg j hjn, hvalues r hr j hjn]
      · rw [if_neg hjn, if_neg hjn, if_pos (by omega)]
        norm_num [toRat, Fraction.one, Fraction.ofInt]
    · rw [if_neg hlast, if_neg hlast]
      by_cases hjn : j ≤ n
      · rw [if_pos hjn, if_pos hjn, hvalues i (by omega) j hjn]
      · rw [if_neg hjn, if_neg hjn, toRat_zero]

/-! ## The cut -/

/-- The tableau `U` with the basis `C` is the tableau `T` with an exact cut from row `r`: what was there is
kept, the new row holds the negated fractional parts, and the basis with the slack is canonical.  The
right-hand side cuts off the basic point, and the integer solutions are those from before, each with exactly
one slack. -/
structure ExactCut (A : Arithmetic) (T : Tableau) (B : Basis) (r : ℕ) (U : Tableau) (C : Basis) :
    Prop where
  columns : U.columns = T.columns + 1
  constraints : U.constraints = T.constraints + 1
  kept : ∀ i ≤ T.constraints, ∀ j ≤ T.columns, U.get i j = T.get i j
  entries : ∀ j ≤ T.columns, U.values (T.constraints + 1) j = -Int.fract (T.values r j)
  slack : U.get (T.constraints + 1) (T.columns + 1) = .ok Fraction.one ∧
    ∀ i ≤ T.constraints, U.get i (T.columns + 1) = .ok Fraction.zero
  basis : C = B.push (T.columns + 1)
  canonical : U.isCanonical A C = .ok true
  cuts_off : -1 < U.values (T.constraints + 1) 0 ∧ U.values (T.constraints + 1) 0 < 0
  keeps_integers : ∀ x, IntegerPoint T.columns x ∧ T.Satisfies x ↔
    ∃! z, IntegerPoint (T.columns + 1) (Function.update x (T.columns + 1) z) ∧
      U.Satisfies (Function.update x (T.columns + 1) z)

/-- A row that is put together from such entries is an exact cut. -/
theorem Stores.exactCut (hA : A.holds 1 = true) (hT : T.Stores A T.constraints T.columns E)
    (hB : B.Represents T.constraints B.basic)
    (hcanonical : E.Canonical T.constraints T.columns B.basic) (hr : 1 ≤ r) (hrm : r ≤ T.constraints)
    (hpos : ∀ j ≤ T.columns, 0 < (E r j).den) (hfraction : (E r 0).isInteger = false) :
    T.ExactCut A B r
      (T.augment.setRow T.augment.constraints
        (cellRow T.columns (fun j => (E r j).cutEntry) ++ [Fraction.one]))
      (B.push T.augment.columns) := by
  have hU := hT.appendCut hA fun j hj => (hT.proper r hrm j hj).cutEntry hA (hpos j hj)
  set U := T.augment.setRow T.augment.constraints
    (cellRow T.columns (fun j => (E r j).cutEntry) ++ [Fraction.one])
  have hvalues : U.values = T.values.cut T.constraints T.columns r :=
    hT.values_cut hU (fun j hj => toRat_cutEntry (hpos j hj)) hrm
  have hC := hB.push (T.columns + 1)
  have hzero : ∀ i, 1 ≤ i → i ≤ T.constraints → (E r (B.basic i)).cutEntry = Fraction.zero := by
    intro i hi him
    rcases hcanonical.units.unit_cases hi him hrm with hunit | hunit <;> rw [hunit] <;> rfl
  have hcut := hcanonical.cut (g := fun j => (E r j).cutEntry) hzero
  refine ⟨hU.columns, hU.constraints, fun i hi j hj => ?_, fun j hj => ?_, ⟨?_, fun i hi => ?_⟩, rfl,
    ?_, ?_, fun x => ?_⟩
  · rw [hU.get i (by omega) j (by omega), hT.get i hi j hj, Cells.cut, if_neg (by omega), if_pos hj]
  · rw [hvalues, Values.cut_row hj]
  · rw [hU.get _ le_rfl _ le_rfl, Cells.cut, if_pos rfl, if_neg (by omega)]
  · rw [hU.get i (by omega) _ le_rfl, Cells.cut, if_neg (by omega), if_neg (by omega)]
  · show U.isCanonical A (B.push (T.columns + 1)) = .ok true
    rw [hU.isCanonical_iff hA hC fun i hi him => ⟨hcut.basic_pos i hi him, hcut.basic_le i hi him⟩]
    exact hcut
  · have hrhs : U.values (T.constraints + 1) 0 = (E r 0).cutEntry.toRat := by
      rw [hvalues, Values.cut_row (Nat.zero_le _), toRat_cutEntry (hpos 0 (Nat.zero_le _)),
        values_of_get (Nat.zero_le _) (hT.get r hrm 0 (Nat.zero_le _))]
    rw [hrhs]
    exact cutEntry_between (hT.proper r hrm 0 (Nat.zero_le _)) (hpos 0 (Nat.zero_le _)) hfraction
  · have hpoints := T.values.integerPoint_cut_iff (n := T.columns) hr hrm x
    rw [← hvalues] at hpoints
    exact hpoints

/-- A cut from a row with positive denominators and a right-hand side that is not an integer is exact in
any arithmetic, and only checked arithmetic can refuse it. -/
theorem addCut_exact (hA : A.holds 1 = true) (hT : T.Shaped)
    (hentries : ∀ a ∈ T.entries, Fraction.Built A a) (hB : T.isCanonical A B = .ok true)
    (hcolumns : ∀ c ∈ B.columns, 1 ≤ c ∧ c ≤ T.columns) (hr : 1 ≤ r) (hrm : r ≤ T.constraints)
    (hpos : ∀ j ≤ T.columns, 0 < (T.cells r j).den) (hfraction : (T.cells r 0).isInteger = false) :
    Safe A (T.addCut A B r) (fun cut => T.ExactCut A B r cut.1 cut.2) ∧
      ((∀ bits, A ≠ .checked bits) → ∃ cut, T.addCut A B r = .ok cut) := by
  have hstores := T.stores_cells hT fun a ha => (hentries a ha).proper hA
  have hsize : B.size = T.constraints := by
    by_contra hne
    unfold isCanonical at hB
    rw [if_neg hne] at hB
    cases hB
  have hrep : B.Represents T.constraints B.basic := ⟨hsize, rfl⟩
  have hcanonical := (hstores.isCanonical_iff hA hrep fun i hi him =>
    hcolumns _ (hrep.mem_columns.mpr ⟨i, hi, him, rfl⟩)).mp hB
  have hrow : ∀ j ≤ T.columns, Proper A (T.cells r j) ∧ 0 < (T.cells r j).den := fun j hj =>
    ⟨hstores.proper r hrm j hj, hpos j hj⟩
  unfold addCut
  rw [hstores.row hrm]
  constructor
  · refine safe_ok_bind ((safe_exactCutEntries hA hrow).bind fun row hrow => ?_)
    subst hrow
    exact safe_pure (hstores.exactCut hA hrep hcanonical hr hrm hpos hfraction)
  · intro hunchecked
    simp only [exactCutEntries hA hunchecked hrow, bind, Except.bind]
    exact ⟨_, rfl⟩

/-- A row with the greatest and the least word as numerators. -/
def extremeRow : Tableau where
  columns := 2
  constraints := 1
  entries := #[⟨0, 1⟩, ⟨1, 1⟩, ⟨0, 1⟩, ⟨2147483647, 2⟩, ⟨-2147483648, 3⟩, ⟨1, 1⟩]

/-- The floor of a cell times its denominator wraps around, and the cut is exact. -/
theorem addCut_exact_extremeRow :
    (Arithmetic.wrapping 32).mul (-715827883) 3 = .ok 2147483647 ∧
      ∃ U C, extremeRow.addCut (.wrapping 32) ⟨[2]⟩ 1 = .ok (U, C) ∧ extremeRow.ExactCut (.wrapping 32) ⟨[2]⟩ 1 U C ∧
        U.row 2 = .ok [⟨-1, 2⟩, ⟨-1, 3⟩, ⟨0, 1⟩, ⟨1, 1⟩] := by
  have hA : (Arithmetic.wrapping 32).holds 1 = true := by decide
  have hbuilt : ∀ a ∈ extremeRow.entries, Fraction.Built (.wrapping 32) a := by
    have hinteger : ∀ n : ℤ, (Arithmetic.wrapping 32).holds n = true → Fraction.Built (.wrapping 32) ⟨n, 1⟩ := fun n hn =>
      .ofInt hn
    have hgreatest : Fraction.Built (.wrapping 32) ⟨2147483647, 2⟩ :=
      @Fraction.Built.ofRatio (.wrapping 32) 2147483647 2 _ (by decide) (by decide) (by decide +kernel)
    have hleast : Fraction.Built (.wrapping 32) ⟨-2147483648, 3⟩ :=
      @Fraction.Built.ofRatio (.wrapping 32) (-2147483648) 3 _ (by decide) (by decide) (by decide +kernel)
    have hzero := hinteger 0 (by decide)
    have hone := hinteger 1 (by decide)
    simp [extremeRow, hzero, hone, hgreatest, hleast]
  have hcells : ∀ j ≤ extremeRow.columns, 0 < (extremeRow.cells 1 j).den := by decide +kernel
  rcases addCut_exact hA (T := extremeRow) (B := ⟨[2]⟩) (r := 1) (by decide) hbuilt (by decide +kernel)
    (by decide) (by decide) (by decide) hcells (by decide +kernel) with ⟨hcut, hexists⟩
  rcases hexists (by intro bits h; cases h) with ⟨⟨U, C⟩, hresult⟩
  have hrow : (extremeRow.addCut (.wrapping 32) ⟨[2]⟩ 1 >>= fun cut => cut.1.row 2) =
      .ok [⟨-1, 2⟩, ⟨-1, 3⟩, ⟨0, 1⟩, ⟨1, 1⟩] := by
    decide +kernel
  rw [hresult] at hrow
  exact ⟨by decide +kernel, U, C, hresult, hcut.of_eq_ok hresult, hrow⟩

end Tableau
end ExactSimplex
