import ExactSimplex.Proofs.Fraction.Reread
import ExactSimplex.Proofs.Tableau.Elimination

/-!
# A pivot that is repeated

After a pivot its entry is exactly one and the other entries of its column, as far as it eliminates, are exactly
zero, whatever wrapped on the way.  So the same pivot once more divides its row by one and skips all other rows.
The division may move the sign of a pair with a negative denominator, but what it leaves is equal.

Main results:

- Theorem {lit}`Tableau.unbudgeted_pivot`: a pivot can only stop because a result is refused.
- Theorem {lit}`Tableau.Stores.pivot_of_unit`: a pivot on an entry whose column is a unit vector already.
- Theorem {lit}`Tableau.pivot_again`: a repeated pivot leaves an equal tableau.
-/

namespace ExactSimplex

open Calc Fraction

variable {A : Arithmetic} {T U : Tableau} {m n h t : ℕ} {E F : Cells} {e : Elimination}

/-! ## Pivots have no budget -/

/-- Demanding an integer spends no budget. -/
theorem Arithmetic.unbudgeted_demand (A : Arithmetic) (k : ℤ) : Unbudgeted (A.demand k) := by
  unfold demand
  split <;> simp [Unbudgeted]

/-- Storing a result spends no budget. -/
theorem Arithmetic.unbudgeted_store (A : Arithmetic) (k : ℤ) : Unbudgeted (A.store k) := by
  cases A with
  | exact => exact unbudgeted_ok k
  | wrapping bits => exact unbudgeted_ok _
  | checked bits => exact unbudgeted_demand _ k

/-- Two stored results may be used without a budget. -/
theorem Arithmetic.unbudgeted_stores {α : Type} (A : Arithmetic) (x y : ℤ) {f : ℤ → ℤ → Calc α}
    (hf : ∀ num den, Unbudgeted (f num den)) :
    Unbudgeted (A.store x >>= fun num => A.store y >>= f num) :=
  (A.unbudgeted_store x).bind fun num => (A.unbudgeted_store y).bind (hf num)

namespace Fraction

variable (A)

/-- Reducing a pair spends no budget. -/
theorem unbudgeted_reduce (num den : ℤ) : Unbudgeted (reduce A num den) := by
  have hsign : Unbudgeted (moveSign A num den) := by
    unfold moveSign
    split
    · exact A.unbudgeted_stores _ _ fun num den => unbudgeted_ok (num, den)
    · exact unbudgeted_ok _
  refine hsign.bind fun pair => ?_
  dsimp only
  split
  · exact unbudgeted_ok _
  · exact (A.unbudgeted_demand _).bind fun _ => unbudgeted_ok _

/-- Building a fraction spends no budget. -/
theorem unbudgeted_ofRatio (num den : ℤ) : Unbudgeted (ofRatio A num den) := by
  by_cases hden : den = 0
  · rw [hden, ofRatio_zero]
    exact unbudgeted_ok _
  · rw [ofRatio_of_ne A hden]
    exact unbudgeted_reduce A num den

theorem unbudgeted_mul (a b : Fraction) : Unbudgeted (mul A a b) := by
  rw [mul_eq]
  exact A.unbudgeted_stores _ _ (unbudgeted_ofRatio A)

theorem unbudgeted_div (a b : Fraction) : Unbudgeted (div A a b) := by
  cases hb : b.isZero with
  | true =>
      rw [div_of_isZero A a hb]
      exact unbudgeted_ok _
  | false =>
      rw [div_eq A a hb]
      exact A.unbudgeted_stores _ _ (unbudgeted_ofRatio A)

theorem unbudgeted_sub (a b : Fraction) : Unbudgeted (sub A a b) := by
  rw [sub_eq]
  have hcross : Unbudgeted (cross A a b) :=
    A.unbudgeted_stores _ _ fun left right => unbudgeted_ok (left, right)
  exact hcross.bind fun _ => A.unbudgeted_stores _ _ (unbudgeted_ofRatio A)

end Fraction

namespace Tableau

/-- Reading a row spends no budget. -/
theorem unbudgeted_row (T : Tableau) (i : ℕ) : Unbudgeted (T.row i) := by
  unfold Tableau.row
  split <;> simp [Unbudgeted]

section

variable (A)

/-- By induction on the entries. -/
theorem unbudgeted_subtractMultiple (factor : Fraction) (entries scaled : List Fraction) :
    Unbudgeted (subtractMultiple A factor entries scaled) := by
  induction entries generalizing scaled with
  | nil => exact unbudgeted_ok []
  | cons entry entries ih =>
      cases scaled with
      | nil => exact unbudgeted_ok []
      | cons value rest =>
          exact (unbudgeted_mul A _ _).bind fun _ => (unbudgeted_sub A _ _).bind fun _ =>
            (ih rest).bind fun _ => unbudgeted_ok _

/-- Eliminating from a row spends no budget. -/
theorem unbudgeted_eliminateRow (T : Tableau) (h t : ℕ) (scaled : List Fraction) (i : ℕ) :
    Unbudgeted (T.eliminateRow A h t scaled i) := by
  refine (unbudgeted_fetch _).bind fun factor => ?_
  split
  · exact unbudgeted_ok T
  · exact (T.unbudgeted_row i).bind fun entries =>
      (unbudgeted_subtractMultiple A factor entries scaled).bind fun _ => unbudgeted_ok _

/-- By induction on the number of rows. -/
theorem unbudgeted_eliminateRows (T : Tableau) (h t : ℕ) (scaled : List Fraction) (i count : ℕ) :
    Unbudgeted (T.eliminateRows A h t scaled i count) := by
  induction count generalizing i T with
  | zero => exact unbudgeted_ok T
  | succ count ih => exact (unbudgeted_eliminateRow A T h t scaled i).bind fun U => ih U (i + 1)

/-- A pivot spends no budget. -/
theorem unbudgeted_pivot (T : Tableau) (h t : ℕ) (e : Elimination) : Unbudgeted (T.pivot A h t e) := by
  refine (unbudgeted_fetch _).bind fun element => ?_
  have hscale : Unbudgeted (T.scaleRow A t element) :=
    (T.unbudgeted_row t).bind fun entries =>
      (Unbudgeted.mapM (fun entry => unbudgeted_div A entry element) entries).bind fun _ => unbudgeted_ok _
  refine hscale.bind fun U => (U.unbudgeted_row t).bind fun scaled => ?_
  cases e with
  | all => exact unbudgeted_eliminateRows A U h t scaled 0 _
  | row i => exact unbudgeted_eliminateRow A U h t scaled i

end

/-! ## The second pivot -/

/-- A row in which the column vanishes already, and the pivot row, stay. -/
theorem eliminateRow_of_skip {i : ℕ} {a : Fraction} (scaled : List Fraction) (hget : T.get i h = .ok a)
    (hskip : i = t ∨ a.isZero = true) : T.eliminateRow A h t scaled i = .ok T := by
  unfold eliminateRow
  rw [hget]
  simp only [bind, Except.bind, if_pos hskip, pure, Except.pure]

/-- If the column vanishes in all rows of the range but the pivot row, nothing changes, by induction on the
number of rows. -/
theorem eliminateRows_of_skip (scaled : List Fraction) (i count : ℕ)
    (hskip : ∀ r, i ≤ r → r < i + count → ∃ a, T.get r h = .ok a ∧ (r = t ∨ a.isZero = true)) :
    T.eliminateRows A h t scaled i count = .ok T := by
  induction count generalizing i with
  | zero => rfl
  | succ count ih =>
      rcases hskip i (Nat.le_refl i) (by omega) with ⟨a, hget, hself⟩
      unfold eliminateRows
      rw [eliminateRow_of_skip scaled hget hself]
      exact ih (i + 1) fun r hr hlt => hskip r (by omega) (by omega)

section

variable (hA : A.holds 1 = true) (hunchecked : ∀ bits, A ≠ .checked bits)

include hA hunchecked

/-- Dividing a row by one leaves cells that are equal to those before. -/
theorem Stores.scaleRow_one (hU : U.Stores A m n F) (ht : t ≤ m) :
    ∃ V g, U.scaleRow A t Fraction.one = .ok V ∧ V.Stores A m n (Function.update F t g) ∧
      ∀ j ≤ n, Fraction.eq A (g j) (F t j) = .ok true := by
  have hdiv : ∀ j ≤ n, ∃ b, Fraction.div A (F t j) Fraction.one = .ok b ∧
      Fraction.eq A b (F t j) = .ok true := fun j hj => (hU.proper t ht j hj).exists_div_one hA hunchecked
  choose! g hg hequal using hdiv
  have hrun : U.scaleRow A t Fraction.one = .ok (U.setRow t (cellRow n g)) := by
    have hcells : (List.range (n + 1)).mapM (fun j => Fraction.div A (F t j) Fraction.one) =
        .ok ((List.range (n + 1)).map g) :=
      mapM_eq_ok fun j hj => hg j (Nat.le_of_lt_succ (List.mem_range.mp hj))
    unfold Tableau.scaleRow
    rw [hU.row ht]
    simp only [bind, Except.bind, cellRow, List.mapM_map, Function.comp_def, hcells, pure, Except.pure]
  have hproper : ∀ j ≤ n, Proper A (g j) := fun j hj =>
    (safe_div hA (F t j) Fraction.one).of_eq_ok (hg j hj)
  exact ⟨_, g, hrun, hU.setRow ht hproper, hequal⟩

/-- A pivot on a one whose column vanishes in all rows that the elimination reaches leaves an equal tableau. -/
theorem Stores.pivot_of_unit (hU : U.Stores A m n F) (hh : h ≤ n) (ht : t ≤ m)
    (he : ∀ r, e = .row r → r ≤ m) (hone : F t h = Fraction.one)
    (hzero : ∀ i ≤ m, i ≠ t → e.reaches i → F i h = Fraction.zero) :
    ∃ V, U.pivot A h t e = .ok V ∧ V.same A U = .ok true := by
  rcases hU.scaleRow_one hA hunchecked ht with ⟨V, g, hscale, hV, hequal⟩
  have hskip : ∀ i ≤ m, e.reaches i → ∃ a, V.get i h = .ok a ∧ (i = t ∨ a.isZero = true) := by
    intro i hi hreach
    refine ⟨_, hV.get i hi h hh, ?_⟩
    by_cases hit : i = t
    · exact Or.inl hit
    · rw [Function.update_of_ne hit, hzero i hi hit hreach]
      exact Or.inr rfl
  have hrun : U.pivot A h t e = .ok V := by
    unfold Tableau.pivot
    rw [hU.get t ht h hh, hone]
    simp only [bind, Except.bind, hscale, hV.row ht]
    cases e with
    | all =>
        rw [hV.constraints]
        exact eliminateRows_of_skip _ 0 (m + 1) fun r _ hr => hskip r (by omega) trivial
    | row r =>
        rcases hskip r (he r rfl) rfl with ⟨a, hget, hself⟩
        exact eliminateRow_of_skip _ hget hself
  refine ⟨V, hrun, hV.same_of_cells hU fun i _ j hj => ?_⟩
  by_cases hit : i = t
  · rw [hit, Function.update_self]
    exact hequal j hj
  · rw [Function.update_of_ne hit]
    exact eq_self hunchecked _

/-- In exact and in wrapping arithmetic a pivot on a nonzero entry, done once more, leaves an equal tableau.  The
first of the two can be stopped by a single result that a word cannot hold, the greatest common divisor of two
least words. -/
theorem pivot_again (hT : T.Shaped) (hentries : ∀ a ∈ T.entries, Built A a) (htm : t ≤ T.constraints)
    (hhn : h ≤ T.columns) (he : ∀ r, e = .row r → r ≤ T.constraints) {a : Fraction}
    (hget : T.get t h = .ok a) (hne : a.isZero = false) :
    (∃ U V, T.pivot A h t e = .ok U ∧ U.pivot A h t e = .ok V ∧ V.same A U = .ok true) ∨
      ∃ bits, A = .wrapping bits ∧
        T.pivot A h t e = .error (.overflow (Arithmetic.halfRange bits)) := by
  have hstores := T.stores_cells hT fun b hb => (hentries b hb).proper hA
  have hcell : T.cells t h = a := by
    apply Except.ok.inj
    rw [← hstores.get t htm h hhn, hget]
  rcases (hstores.pivot hA hhn htm e he).of_unbudgeted (unbudgeted_pivot A T h t e) with
    ⟨U, hU, F, hF, hpivoted⟩ | ⟨k, hfault, hrefused⟩
  · rcases hpivoted.pivot_column hA hstores.proper hhn htm (by rw [hcell, hne]) with ⟨hone, hzero⟩
    rcases hF.pivot_of_unit hA hunchecked hhn htm he hone hzero with ⟨V, hV, hsame⟩
    exact Or.inl ⟨U, V, hU, hV, hsame⟩
  · cases A with
    | exact => exact hrefused.elim
    | wrapping bits =>
        obtain rfl : k = Arithmetic.halfRange bits := hrefused
        exact Or.inr ⟨bits, rfl, hfault⟩
    | checked bits => exact absurd rfl (hunchecked bits)

end

/-- A row with a fraction whose denominator becomes the least word of 32 bits when it is divided by the first
entry. -/
def steep : Tableau where
  columns := 2
  constraints := 1
  entries := #[⟨7, 1⟩, ⟨5, 1⟩, ⟨3, 1⟩, ⟨65537, 1⟩, ⟨65536, 1⟩, ⟨3, 32768⟩]

/-- The repeated pivot moves the sign of a pair with a negative denominator, and the tableaux are equal though
they differ. -/
theorem pivot_again_steep : ∃ U V, steep.pivot (.wrapping 32) 1 1 .all = .ok U ∧
    U.pivot (.wrapping 32) 1 1 .all = .ok V ∧ V.same (.wrapping 32) U = .ok true ∧ V ≠ U := by
  have hbuilt : ∀ a ∈ steep.entries, Built (.wrapping 32) a := built_of_reduced (by decide +kernel)
  have hdiffer : ((steep.pivot (.wrapping 32) 1 1 .all).bind fun U =>
      (U.pivot (.wrapping 32) 1 1 .all).map fun V => decide (V ≠ U)) = .ok true := by
    decide +kernel
  rcases pivot_again (h := 1) (t := 1) (e := .all) (by decide) (Arithmetic.wrapping_unchecked 32) (by decide)
    hbuilt (by decide) (by decide) (fun r hr => by cases hr) rfl rfl with ⟨U, V, hU, hV, hsame⟩ | ⟨bits, -, hfault⟩
  · have hne : V ≠ U := by simpa [hU, hV, Except.bind, Except.map] using hdiffer
    exact ⟨U, V, hU, hV, hsame, hne⟩
  · rw [hfault] at hdiffer
    cases hdiffer

end Tableau
end ExactSimplex
