import ExactSimplex.Proofs.Simplex.SoundPhaseOne
import ExactSimplex.Proofs.Tableau.Cut
import ExactSimplex.Simplex.CuttingPlane

/-!
# Cutting planes in any arithmetic

A cut appends a row and a column.  In the basic columns it takes the fractional parts of zeros and ones,
and these are exactly zero in every arithmetic, so the slack can join a canonical basis.

Main results:

- Theorems {lit}`Tableau.Stores.augment` and {lit}`Tableau.Stores.appendCut`: the cells of the grown
  tableau, before and after its last row is written.
- Theorem {lit}`Cells.Canonical.cut`: a row that is zero in the basic columns, with a slack of its own.
- Theorem {lit}`SoundState.safe_addCut`: a cut leads to a sound state.
- Theorem {lit}`Tableau.Stores.safe_cuttingPlane`: an optimum of the cutting plane method is sound.
-/

namespace ExactSimplex

open Calc Fraction

variable {A : Arithmetic} {T : Tableau} {B : Basis} {m n r : ℕ} {E : Cells} {β : ℕ → ℕ} {s : State}

/-! ## The cells after a cut -/

/-- The cells with a row `g` below and a column for its slack at the right. -/
def Cells.cut (E : Cells) (m n : ℕ) (g : ℕ → Fraction) : Cells := fun i j =>
  if i = m + 1 then if j ≤ n then g j else Fraction.one
  else if j ≤ n then E i j else Fraction.zero

/-- A row that is zero in the basic columns makes its slack basic. -/
theorem Cells.Canonical.cut (hE : E.Canonical m n β) {g : ℕ → Fraction}
    (hg : ∀ i, 1 ≤ i → i ≤ m → g (β i) = Fraction.zero) :
    (E.cut m n g).Canonical (m + 1) (n + 1) (Function.update β (m + 1) (n + 1)) := by
  refine ⟨fun i hi him => ?_, fun i hi him => ?_, fun i hi him k hk => ?_⟩
  · by_cases hlast : i = m + 1
    · rw [hlast, Function.update_self]
      omega
    · rw [Function.update_of_ne hlast]
      exact hE.basic_pos i hi (by omega)
  · by_cases hlast : i = m + 1
    · rw [hlast, Function.update_self]
    · rw [Function.update_of_ne hlast]
      exact (hE.basic_le i hi (by omega)).trans (Nat.le_succ n)
  · by_cases hlast : i = m + 1
    · have hslack : ¬n + 1 ≤ n := by omega
      rw [hlast, Function.update_self, Cells.cut, if_neg hslack, if_neg hslack]
    · have hle := hE.basic_le i hi (by omega)
      rw [Function.update_of_ne hlast, Cells.cut, if_pos hle, if_pos hle]
      by_cases hkm : k = m + 1
      · rw [if_pos hkm, hg i hi (by omega), if_neg (by omega)]
      · rw [if_neg hkm]
        exact hE.unit i hi (by omega) k (by omega)

namespace Tableau

namespace Stores

/-- The grown tableau holds zeros in the new row and in the new column. -/
theorem augment (hA : A.holds 1 = true) (hT : T.Stores A m n E) :
    T.augment.Stores A (m + 1) (n + 1) fun i j =>
      if i ≤ m ∧ j ≤ n then E i j else Fraction.zero where
  shaped := shaped_augment T
  constraints := congrArg (· + 1) hT.constraints
  columns := congrArg (· + 1) hT.columns
  get := by
    intro i hi j hj
    rw [T.get_augment (by rwa [hT.constraints]) (by rwa [hT.columns]), hT.columns]
    congr 1
    by_cases hjn : j ≤ n
    · rw [if_pos hjn]
      by_cases him : i ≤ m
      · rw [if_pos ⟨him, hjn⟩]
        exact hT.cells_eq him hjn
      · rw [if_neg (fun h => him h.1)]
        exact hT.cells_of_lt (by omega) j
    · rw [if_neg hjn, if_neg (fun h => hjn h.2)]
  proper := by
    intro i hi j hj
    split
    · next h => exact hT.proper i h.1 j h.2
    · exact .zero hA

/-- The grown tableau with a row of proper fractions and a one in its last row. -/
theorem appendCut (hA : A.holds 1 = true) (hT : T.Stores A m n E) {g : ℕ → Fraction}
    (hg : ∀ j ≤ n, Proper A (g j)) :
    (T.augment.setRow T.augment.constraints (cellRow n g ++ [Fraction.one])).Stores A (m + 1) (n + 1)
      (E.cut m n g) := by
  have hgrown := hT.augment hA
  have hconstraints : T.augment.constraints = m + 1 := hgrown.constraints
  have hentries : cellRow n g ++ [Fraction.one] = cellRow (n + 1) (E.cut m n g (m + 1)) := by
    rw [cellRow_add n 1]
    congr 1
    · exact cellRow_congr fun j hj => by rw [Cells.cut, if_pos rfl, if_pos hj]
    · simp [Cells.cut]
  have hset := hgrown.setRow (Nat.le_refl (m + 1)) (f := E.cut m n g (m + 1)) fun j _ => by
    rw [Cells.cut, if_pos rfl]
    split
    · next hj => exact hg j hj
    · exact .one hA
  rw [hconstraints, hentries]
  refine hset.congr fun i him j hj => ?_
  by_cases hlast : i = m + 1
  · rw [hlast, Function.update_self]
  · have hiff : (i ≤ m ∧ j ≤ n) ↔ j ≤ n := by omega
    rw [Function.update_of_ne hlast, Cells.cut, if_neg hlast]
    simp only [hiff]

end Stores

/-- The entries of a cut are found one by one, by induction on the positions. -/
theorem cutEntries_eq_mapM (f : ℕ → Fraction) (positions : List ℕ) :
    cutEntries A (positions.map f) =
      positions.mapM fun j => Fraction.fract A (f j) >>= Fraction.neg A := by
  induction positions with
  | nil => rfl
  | cons j positions ih =>
      simp only [List.map_cons, cutEntries, ih, List.mapM_cons, bind_assoc]

/-- Zeros and ones leave zeros in a cut. -/
theorem safe_cutEntries (hA : A.holds 1 = true) (f : ℕ → Fraction) :
    Safe A (cutEntries A (cellRow n f)) fun row => ∃ g, row = cellRow n g ∧
      ∀ j ≤ n, Proper A (g j) ∧
        (f j = Fraction.zero ∨ f j = Fraction.one → g j = Fraction.zero) := by
  rw [cellRow, cutEntries_eq_mapM]
  have hcell : ∀ j ≤ n, Safe A (Fraction.fract A (f j) >>= Fraction.neg A) fun b =>
      Proper A b ∧ (f j = Fraction.zero ∨ f j = Fraction.one → b = Fraction.zero) := by
    intro j _
    refine (safe_fract hA (f j)).with_eq.bind fun part hpart => ?_
    refine (safe_neg hA hpart.2).imp fun b hb => ⟨hb.1, fun hunit => hb.2 ?_⟩
    exact (safe_fract_unit hA hunit).of_eq_ok hpart.1
  refine (safe_mapM_range hcell).imp fun row hrow => ?_
  rcases hrow with ⟨g, hg, hcells⟩
  exact ⟨g, hg, fun j hj => (hcells j hj).2⟩

end Tableau

/-! ## Rounds -/

namespace SoundState

/-- A cut from any row leads to a sound state. -/
theorem safe_addCut (hA : A.holds 1 = true) (hs : SoundState A m n s) (hr : r ≤ m) :
    Safe A (Tableau.addCut A s.1 s.2 r) (SoundState A (m + 1) (n + 1)) := by
  unfold Tableau.addCut
  rw [hs.stores.row hr]
  refine safe_ok_bind ((Tableau.safe_cutEntries hA (s.1.cells r)).bind fun row hrow => ?_)
  rcases hrow with ⟨g, rfl, hg⟩
  have hcells := hs.stores.appendCut hA fun j hj => (hg j hj).1
  have hcolumns : s.1.augment.columns = n + 1 := congrArg (· + 1) hs.stores.columns
  dsimp only
  rw [hcolumns]
  have hzero : ∀ i, 1 ≤ i → i ≤ m → g (s.2.basic i) = Fraction.zero := fun i hi him =>
    (hg _ (hs.canonical.basic_le i hi him)).2 (hs.canonical.units.unit_cases hi him hr)
  exact safe_pure (hcells.soundState (hs.basis.push (n + 1)) (hs.canonical.cut hzero))

/-- A row that is found to be fractional is a constraint row. -/
theorem safe_fractionalRow (hs : SoundState A m n s) :
    Safe A s.1.fractionalRow fun found => ∀ r, found = some r → 1 ≤ r ∧ r ≤ m := by
  unfold Tableau.fractionalRow
  rw [hs.stores.constraints]
  refine (safe_firstIndex (p := fun _ => True) fun i _ hi => ?_).imp fun found hfound r hr => ?_
  · rw [hs.stores.rhs (by omega)]
    exact safe_ok_bind (safe_pure fun _ => trivial)
  · have := hfound r hr
    omega

/-- The rounds are safe and end in a sound state, by induction on their number. -/
theorem safe_cutRounds (hA : A.holds 1 = true) (budget rounds round : ℕ)
    (hs : SoundState A m n (T, B)) :
    Safe A (Tableau.cutRounds A budget rounds round T B) fun run =>
      ∃ m n, SoundState A m n (run.tableau, run.basis) := by
  induction rounds generalizing round m n T B with
  | zero => exact trivial
  | succ rounds ih =>
      refine hs.safe_fractionalRow.bind fun found hfound => ?_
      cases found with
      | none => exact safe_pure ⟨m, n, hs⟩
      | some r =>
          refine (hs.safe_addCut hA (hfound r rfl).2).bind fun ⟨U, C⟩ hcut => ?_
          refine ((soundRule_dualRule hA).safe_runStage hA budget hcut).bind fun run hrun => ?_
          cases hresult : run.result with
          | unbounded => exact safe_pure ⟨m + 1, n + 1, hrun⟩
          | optimal => exact (ih (round + 1) hrun).bind fun rest hrest => safe_pure hrest

/-- The relaxed program and its rounds stay on sound states. -/
theorem safe_relaxAndCut (hA : A.holds 1 = true) (budget : ℕ) (hs : SoundState A m n (T, B)) :
    Safe A (Tableau.relaxAndCut A budget T B) fun run =>
      ∃ m n, SoundState A m n (run.tableau, run.basis) := by
  refine ((soundRule_primalRule hA).safe_runStage hA budget hs).bind fun run hrun => ?_
  cases hresult : run.result with
  | unbounded => exact safe_pure ⟨m, n, hrun⟩
  | optimal => exact (hrun.safe_cutRounds hA budget budget 0).bind fun rest hrest => safe_pure hrest

end SoundState

/-! ## The whole method -/

namespace Tableau.Stores

/-- From the search for a start on, an optimum is a sound state. -/
theorem safe_cutFromStart (hA : A.holds 1 = true) (hT : T.Stores A m n E) (budget : ℕ) (B : Basis) :
    Safe A (T.cutFromStart A budget B) fun run =>
      run.result = .ok .optimal → ∃ m n, SoundState A m n (run.tableau, run.basis) := by
  refine (hT.safe_startingBasis hA).bind fun found hfound => ?_
  cases found with
  | some C =>
      rcases hfound C rfl with ⟨hC, hcanonical⟩
      refine ((hT.soundState hC hcanonical).safe_relaxAndCut hA budget).bind fun run hrun => ?_
      exact safe_pure fun _ => hrun
  | none =>
      refine (hT.safe_phaseOne hA budget B).bind fun first hfirst => ?_
      rcases hresult : first.result with e | (_ | _)
      · exact safe_pure fun h => by cases h
      · refine ((hfirst hresult).safe_relaxAndCut hA budget).bind fun run hrun => ?_
        exact safe_pure fun _ => hrun
      · exact safe_pure fun h => by cases h

/-- The cutting plane method is safe, and an optimum that it finds is sound. -/
theorem safe_cuttingPlane (hA : A.holds 1 = true) (hT : T.Stores A m n E) (budget : ℕ) (B : Basis) :
    Safe A (T.cuttingPlane A budget B) fun run =>
      run.result = .ok .optimal → ∃ m n, SoundState A m n (run.tableau, run.basis) := by
  refine (hT.safe_cutFromStart hA budget B).bind fun run hrun => ?_
  rcases hresult : run.result with e | (_ | _ | _)
  · exact safe_pure fun h => by cases h
  · rcases hrun hresult with ⟨m, n, hs⟩
    exact (hs.safe_some_objectiveValue hA).bind fun _ _ => safe_pure fun _ => ⟨m, n, hs⟩
  · exact safe_pure fun h => by cases h
  · exact safe_pure fun h => by cases h

end Tableau.Stores
end ExactSimplex
