import ExactSimplex.Proofs.Fraction.Magnitudes
import ExactSimplex.Proofs.Tableau.Cells
import ExactSimplex.Proofs.Tableau.Refinement
import Mathlib.Logic.Function.Basic

/-!
# Magnitudes in a pivot

A pivot divides its row by the element, multiplies the scaled row by the factor of another row, and subtracts the
product from that row.  From entries of at most {lit}`x` in magnitude, the scaled row has integers of at most
{lit}`x ^ 2`, the product of at most {lit}`x ^ 3`, and the difference of at most {lit}`2 * x ^ 4`.  No row is used
after it was changed but the scaled one, so the bounds do not grow from row to row.

Main results:

- Theorem {lit}`Tableau.completes_subtractMultiple`: a row minus a multiple of another.
- Theorem {lit}`Tableau.Bounded.eliminateRows`: the eliminations of a range of rows.
- Theorem {lit}`Tableau.Bounded.pivot`: a pivot on a tableau of small entries.
-/

namespace ExactSimplex
namespace Tableau

open Calc Fraction

/-! ## Bounded rows -/

/-- A row of a tableau of `columns` columns, whose fractions are within `x`. -/
structure BoundedRow (columns : ℕ) (x : ℤ) (entries : List Fraction) : Prop where
  length : entries.length = columns + 1
  within : ∀ a ∈ entries, a.Within x

/-- The data are exactly the rows of the tableau, and the fractions of row `i` are within `b i`. -/
structure Bounded (T : Tableau) (b : ℕ → ℤ) : Prop where
  shaped : T.Shaped
  get : ∀ i ≤ T.constraints, ∀ j ≤ T.columns, Completes (T.get i j) (Within (b i))

variable {T U : Tableau} {b : ℕ → ℤ} {x y : ℤ} {bits i : ℕ}

/-- A bound on all fractions is one on each row. -/
theorem bounded_of_within (hT : T.Shaped) (h : ∀ a ∈ T.entries, a.Within x) : T.Bounded fun _ => x where
  shaped := hT
  get i hi j hj := by
    have hlt := hT.place_lt hi hj
    refine ⟨T.entries[i * T.width + j], ?_, h _ (Array.getElem_mem hlt)⟩
    unfold Tableau.get
    rw [Array.getElem?_eq_getElem hlt]
    rfl

namespace Bounded

/-- Where no row has a larger bound, all entries are within it. -/
theorem within_of_mem (hT : T.Bounded b) (hb : ∀ i, b i ≤ x) : ∀ a ∈ T.entries, a.Within x := by
  intro a ha
  rcases Array.mem_iff_getElem.mp ha with ⟨k, hk, rfl⟩
  rcases hT.shaped.place_cases hk with ⟨hrow, hcolumn, hplace⟩
  rcases hT.get _ hrow _ hcolumn with ⟨a, hget, ha⟩
  unfold Tableau.get at hget
  rw [hplace, Array.getElem?_eq_getElem hk] at hget
  rw [Except.ok.inj hget]
  exact ha.mono (hb _)

/-- The cells of a row are within its bound. -/
theorem within_cells (hT : T.Bounded b) (hi : i ≤ T.constraints) {j : ℕ} (hj : j ≤ T.columns) :
    (T.cells i j).Within (b i) := by
  rcases hT.get i hi j hj with ⟨a, hget, ha⟩
  rw [hT.shaped.get_cells hi hj] at hget
  rw [Except.ok.inj hget]
  exact ha

/-- A row of a bounded tableau. -/
theorem row (hT : T.Bounded b) (hi : i ≤ T.constraints) :
    Completes (T.row i) (BoundedRow T.columns (b i)) := by
  refine ⟨_, row_eq_cellRow hT.shaped hi fun _ hj => hT.shaped.get_cells hi hj, length_cellRow _ _,
    fun a ha => ?_⟩
  rcases List.mem_map.mp ha with ⟨j, hj, rfl⟩
  exact hT.within_cells hi (Nat.le_of_lt_succ (List.mem_range.mp hj))

/-- Replacing a row replaces its bound. -/
theorem setRow (hT : T.Bounded b) (i : ℕ) {entries : List Fraction}
    (hentries : BoundedRow T.columns x entries) : (T.setRow i entries).Bounded (Function.update b i x) where
  shaped := shaped_setRow hT.shaped i entries
  get r hr j hj := by
    have hlt : j < T.width := Nat.lt_succ_of_le hj
    rcases hT.get r hr j hj with ⟨old, hget, hold⟩
    by_cases hri : r = i
    · subst hri
      have hentry : j < entries.length := by
        rw [hentries.length]
        exact hlt
      rw [get_setRow_self entries hlt hget, List.getElem?_eq_getElem hentry, Function.update_self]
      exact completes_ok (hentries.within _ (List.getElem_mem hentry))
    · rw [get_setRow_of_ne entries hlt hri, hget, Function.update_of_ne hri]
      exact completes_ok hold

end Bounded

/-! ## Pivots -/

/-- The differences of a row and a multiple of another, by induction on the row along the other one. -/
theorem completes_subtractMultiple {z : ℤ} {factor : Fraction} (hfactor : factor.Within y)
    (hbits : 2 * (x * (y * z)) < Arithmetic.halfRange bits) {entries scaled : List Fraction}
    (hlength : entries.length = scaled.length) (hentries : ∀ a ∈ entries, a.Within x)
    (hscaled : ∀ a ∈ scaled, a.Within z) :
    Completes (subtractMultiple (.checked bits) factor entries scaled) fun reduced =>
      reduced.length = entries.length ∧ ∀ a ∈ reduced, a.Within (2 * (x * (y * z))) := by
  induction entries generalizing scaled with
  | nil => exact ⟨[], rfl, rfl, nofun⟩
  | cons entry entries ih =>
      rcases scaled with _ | ⟨first, scaled⟩
      · cases hlength
      rw [List.forall_mem_cons] at hentries hscaled
      have hproduct : y * z < Arithmetic.halfRange bits := by
        have hone := hentries.1.one_le
        have hy := hfactor.one_le
        have hz := hscaled.1.one_le
        nlinarith [mul_pos (by omega : 0 < y) (by omega : 0 < z)]
      unfold subtractMultiple
      refine (completes_mul hfactor hscaled.1 hproduct).bind fun product hwithin => ?_
      refine (completes_sub hentries.1 hwithin hbits).bind fun difference hdifference => ?_
      refine (ih (Nat.succ.inj hlength) hentries.2 hscaled.2).bind fun reduced hreduced => ?_
      exact completes_ok
        ⟨congrArg (· + 1) hreduced.1, List.forall_mem_cons.mpr ⟨hdifference, hreduced.2⟩⟩

/-- The bounds of a scaled row and of the difference of a row and its multiple. -/
theorem le_two_mul_pow (hx : 1 ≤ x) : x ≤ 2 * x ^ 4 ∧ x ^ 2 ≤ 2 * x ^ 4 := by
  have hfirst : x ^ 1 ≤ x ^ 4 := pow_le_pow_right₀ hx (by decide)
  have hsecond : x ^ 2 ≤ x ^ 4 := pow_le_pow_right₀ hx (by decide)
  rw [pow_one] at hfirst
  have hnonneg : 0 ≤ x ^ 4 := (zero_le_one.trans hx).trans hfirst
  omega

section Pivot

variable {h t : ℕ} {scaled : List Fraction} {element : Fraction}
  (hbits : 2 * x ^ 4 < Arithmetic.halfRange bits)

include hbits

/-- Dividing a row by an element squares its bound. -/
theorem Bounded.scaleRow (hx : 1 ≤ x) (hT : T.Bounded fun _ => x) (ht : t ≤ T.constraints)
    (helement : element.Within x) : Completes (scaleRow (.checked bits) T t element) fun U =>
      U.Bounded (Function.update (fun _ => x) t (x ^ 2)) := by
  have hsquare : x * x < Arithmetic.halfRange bits := by
    rw [← sq]
    exact (le_two_mul_pow hx).2.trans_lt hbits
  unfold Tableau.scaleRow
  refine (hT.row ht).bind fun entries hentries => ?_
  refine (Completes.mapM fun a ha => completes_div (hentries.within a ha) helement hsquare).bind
    fun scaled hscaled => ?_
  rw [sq]
  exact completes_ok (hT.setRow t ⟨hscaled.1.trans hentries.length, hscaled.2⟩)

/-- An elimination from a row that was not changed yet leaves at most the fourth power twice. -/
theorem Bounded.eliminateRow (hT : T.Bounded b) (hh : h ≤ T.columns) (hi : i ≤ T.constraints)
    (hscaled : BoundedRow T.columns (x ^ 2) scaled) (hrow : i ≠ t → b i = x) (hle : b i ≤ 2 * x ^ 4) :
    Completes (eliminateRow (.checked bits) T h t scaled i) fun U =>
      U.Bounded (Function.update b i (2 * x ^ 4)) := by
  unfold Tableau.eliminateRow
  refine (hT.get i hi h hh).bind fun factor hfactor => ?_
  split
  · refine completes_ok ⟨hT.shaped, fun r hr j hj => ?_⟩
    by_cases hri : r = i
    · subst hri
      rw [Function.update_self]
      exact (hT.get r hr j hj).imp fun a ha => ha.mono hle
    · rw [Function.update_of_ne hri]
      exact hT.get r hr j hj
  · next hskip =>
      have hbound : b i = x := hrow fun hit => hskip (Or.inl hit)
      rw [hbound] at hfactor
      have hpower : 2 * (x * (x * x ^ 2)) = 2 * x ^ 4 := by ring
      refine (hT.row hi).bind fun entries hentries => ?_
      rw [hbound] at hentries
      refine (completes_subtractMultiple hfactor (hpower ▸ hbits)
        (hentries.length.trans hscaled.length.symm) hentries.within hscaled.within).bind
        fun reduced hreduced => ?_
      rw [← hpower]
      exact completes_ok (hT.setRow i ⟨hreduced.1.trans hentries.length, hreduced.2⟩)

/-- The eliminations of a range of rows, by induction on their number: the rows that are left are still as
they were. -/
theorem Bounded.eliminateRows {count : ℕ} (hT : T.Bounded b) (hh : h ≤ T.columns)
    (hcount : i + count ≤ T.constraints + 1) (hscaled : BoundedRow T.columns (x ^ 2) scaled)
    (hrows : ∀ r, i ≤ r → r ≠ t → b r = x) (hle : ∀ r, b r ≤ 2 * x ^ 4) :
    Completes (eliminateRows (.checked bits) h t scaled i count T) fun U =>
      ∃ b', (∀ r, b' r ≤ 2 * x ^ 4) ∧ U.Bounded b' := by
  induction count generalizing i T b with
  | zero => exact completes_ok ⟨b, hle, hT⟩
  | succ count ih =>
      unfold Tableau.eliminateRows
      rcases hT.eliminateRow hbits hh (by omega) hscaled (hrows i le_rfl) (hle i) with ⟨U, hU, hbounded⟩
      have hsizes := eliminateRow_sizes _ hU
      rw [hU]
      refine ih hbounded (hsizes.columns ▸ hh) (by rw [hsizes.constraints]; omega)
        (hsizes.columns ▸ hscaled) (fun r hr hrt => ?_) fun r => ?_
      · rw [Function.update_of_ne (by omega)]
        exact hrows r (by omega) hrt
      · by_cases hri : r = i
        · rw [hri, Function.update_self]
        · rw [Function.update_of_ne hri]
          exact hle r

/-- Checked arithmetic completes a pivot on small entries, and the result is bounded. -/
theorem Bounded.pivot (hx : 1 ≤ x) (hT : T.Bounded fun _ => x) (hh : h ≤ T.columns)
    (ht : t ≤ T.constraints) (e : Elimination) (he : ∀ i, e = .row i → i ≤ T.constraints) :
    Completes (T.pivot (.checked bits) h t e) fun U => ∀ a ∈ U.entries, a.Within (2 * x ^ 4) := by
  rcases le_two_mul_pow hx with ⟨hfirst, hsecond⟩
  unfold Tableau.pivot
  refine (hT.get t ht h hh).bind fun element helement => ?_
  rcases hT.scaleRow hbits hx ht helement with ⟨V, hV, hbounded⟩
  have hsizes := scaleRow_sizes _ hV
  have hrows : ∀ r, r ≠ t → Function.update (fun _ => x) t (x ^ 2) r = x :=
    fun r hr => Function.update_of_ne hr _ _
  -- The scaled row is bounded by `x ^ 2`, all others still by `x`.
  have hle : ∀ r, Function.update (fun _ => x) t (x ^ 2) r ≤ 2 * x ^ 4 := by
    intro r
    by_cases hrt : r = t
    · rwa [hrt, Function.update_self]
    · rwa [hrows r hrt]
  have hscaled := hbounded.row (i := t) (hsizes.constraints ▸ ht)
  rw [Function.update_self] at hscaled
  rw [hV]
  refine hscaled.bind fun scaled hscaled => ?_
  have hhV : h ≤ V.columns := hsizes.columns ▸ hh
  cases e with
  | all =>
      refine (hbounded.eliminateRows hbits hhV (by omega) hscaled (fun r _ => hrows r) hle).imp ?_
      rintro U ⟨b, hb, hU⟩
      exact hU.within_of_mem hb
  | row i =>
      have hi : i ≤ V.constraints := hsizes.constraints ▸ he i rfl
      refine (hbounded.eliminateRow hbits hhV hi hscaled (hrows i) (hle i)).imp fun U hU => ?_
      refine hU.within_of_mem fun r => ?_
      by_cases hri : r = i
      · rw [hri, Function.update_self]
      · rw [Function.update_of_ne hri]
        exact hle r

end Pivot

end Tableau
end ExactSimplex
