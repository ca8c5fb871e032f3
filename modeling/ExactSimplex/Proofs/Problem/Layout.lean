import ExactSimplex.Proofs.Json.Records
import ExactSimplex.Proofs.Problem.Reading
import ExactSimplex.Proofs.Tableau.StandardForm

/-!
# Problems laid out

The integers, texts and fractions of a problem that was read from a document all stand for words, so the
fractions of its tableau are built in the arithmetic of words.

Main results:

- Theorem {lit}`Problem.stored_of_ofText`: a problem that was read can be stored.
- Theorem {lit}`Problem.Stored.laidOut`: the tableau of a stored problem holds built fractions.
-/

namespace ExactSimplex

open Calc

/-! ## Problems that are read -/

/-- An index that is read is below the bound of indices. -/
theorem Json.lt_indexBound_of_readIndex {document : Json} {n : ℕ} (h : document.readIndex = some n) :
    n < Text.indexBound := by
  cases document with
  | number numeral =>
      simp only [Json.readIndex] at h
      split at h
      · cases h
      · exact of_decide_eq_true (Option.filter_eq_some_iff.mp h).2
  | _ => cases h

/-- A basis that is read consists of indices. -/
theorem Basis.lt_indexBound_of_ofJson {document : Json} {B : Basis} (h : ofJson document = some B) :
    ∀ column ∈ B.columns, column < Text.indexBound := by
  rcases Option.bind_eq_some_iff.mp h with ⟨items, -, hrest⟩
  rcases Option.bind_eq_some_iff.mp hrest with ⟨columns, hcolumns, hB⟩
  cases hB
  clear h hrest
  induction items generalizing columns with
  | nil =>
      cases hcolumns
      exact nofun
  | cons item items ih =>
      rw [List.mapM_cons] at hcolumns
      rcases Option.bind_eq_some_iff.mp hcolumns with ⟨column, hcolumn, hrest⟩
      rcases Option.bind_eq_some_iff.mp hrest with ⟨others, hothers, hall⟩
      cases hall
      exact List.forall_mem_cons.mpr ⟨Json.lt_indexBound_of_readIndex hcolumn, ih _ hothers⟩

namespace Problem

variable {P : Problem} {outer : ℕ} {document : Json} {c : Coefficient}

/-- A coefficient that is read can be stored. -/
theorem stored_of_coefficientOfJson (h : coefficientOfJson outer document = .ok (some c)) :
    c.Stored := by
  unfold coefficientOfJson at h
  split at h
  · split at h
    · next number =>
        have hmap := pure_eq_ok.mp h
        rcases Option.map_eq_some_iff.mp hmap with ⟨value, hvalue, rfl⟩
        exact Fraction.holds_of_readInt hvalue
    · next text =>
        have hmap := pure_eq_ok.mp h
        rcases Option.map_eq_some_iff.mp hmap with ⟨value, -, rfl⟩
        trivial
    · rcases map_eq_ok.mp h with ⟨read, hread, hmap⟩
      rcases Option.map_eq_some_iff.mp hmap with ⟨value, rfl, rfl⟩
      exact Fraction.built_of_ofJson hread
  · cases pure_eq_ok.mp h

/-- So can all coefficients of a list, by induction on the documents. -/
theorem stored_of_coefficientsOfJson {documents : List Json} {l : List Coefficient}
    (h : coefficientsOfJson outer documents = .ok (some l)) : ∀ c ∈ l, c.Stored := by
  induction documents generalizing l with
  | nil =>
      cases pure_eq_ok.mp h
      exact nofun
  | cons document rest ih =>
      rcases bind_eq_ok.mp h with ⟨first, hfirst, h⟩
      cases first with
      | none => cases pure_eq_ok.mp h
      | some c =>
          rcases map_eq_ok.mp h with ⟨read, hread, hmap⟩
          rcases Option.map_eq_some_iff.mp hmap with ⟨others, rfl, rfl⟩
          exact List.forall_mem_cons.mpr ⟨stored_of_coefficientOfJson hfirst, ih hread⟩

theorem stored_of_vectorOfJson {l : List Coefficient} (h : vectorOfJson outer document = .ok (some l)) :
    ∀ c ∈ l, c.Stored := by
  unfold vectorOfJson at h
  split at h
  · cases pure_eq_ok.mp h
  · exact stored_of_coefficientsOfJson h

/-- So can the coefficients of all rows, by induction on the documents. -/
theorem stored_of_rowsOfJson {documents : List Json} {rows : List (List Coefficient)}
    (h : rowsOfJson outer documents = .ok (some rows)) : ∀ row ∈ rows, ∀ c ∈ row, c.Stored := by
  induction documents generalizing rows with
  | nil =>
      cases pure_eq_ok.mp h
      exact nofun
  | cons document rest ih =>
      rcases bind_eq_ok.mp h with ⟨first, hfirst, h⟩
      cases first with
      | none => cases pure_eq_ok.mp h
      | some row =>
          rcases map_eq_ok.mp h with ⟨read, hread, hmap⟩
          rcases Option.map_eq_some_iff.mp hmap with ⟨others, rfl, rfl⟩
          exact List.forall_mem_cons.mpr ⟨stored_of_vectorOfJson hfirst, ih hread⟩

/-- A basis that is read from a field consists of indices. -/
theorem lt_indexBound_of_basisOfJson {field : Option Json} {columns : List ℕ}
    (h : basisOfJson field = some (some columns)) : ∀ column ∈ columns, column < Text.indexBound := by
  unfold basisOfJson Json.readOptional at h
  split at h
  · cases h
  · cases h
  · rcases Option.map_eq_some_iff.mp h with ⟨read, hread, hsome⟩
    cases hsome
    rcases Option.map_eq_some_iff.mp hread with ⟨B, hB, rfl⟩
    exact Basis.lt_indexBound_of_ofJson hB

/-- A problem that was read can be stored. -/
theorem stored_of_ofJson (h : ofJson document = .ok (some P)) : P.Stored := by
  unfold ofJson at h
  split at h
  · split at h
    · next hmode hbasis =>
        rcases bind_eq_ok.mp h with ⟨matrix, hmatrix, h⟩
        rcases bind_eq_ok.mp h with ⟨b, hb, h⟩
        rcases bind_eq_ok.mp h with ⟨c, hc, h⟩
        rcases Option.bind_eq_some_iff.mp (pure_eq_ok.mp h) with ⟨matrix, rfl, hrest⟩
        rcases Option.bind_eq_some_iff.mp hrest with ⟨b, rfl, hlast⟩
        rcases Option.bind_eq_some_iff.mp hlast with ⟨c, rfl, hP⟩
        cases hP
        exact ⟨stored_of_rowsOfJson hmatrix, stored_of_vectorOfJson hb, stored_of_vectorOfJson hc,
          fun columns hcolumns => lt_indexBound_of_basisOfJson (hbasis.trans (congrArg some hcolumns))⟩
    · cases pure_eq_ok.mp h
  · cases pure_eq_ok.mp h

/-- A problem that is read from a text can be stored. -/
theorem stored_of_ofText {text : String} (h : ofText text = .ok (.ok P)) : P.Stored := by
  unfold ofText at h
  split at h
  · cases pure_eq_ok.mp h
  · rcases bind_eq_ok.mp h with ⟨read, hread, h⟩
    cases read with
    | none => cases pure_eq_ok.mp h
    | some Q =>
        cases pure_eq_ok.mp h
        exact stored_of_ofJson hread

end Problem

/-! ## Problems laid out -/

namespace Problem

variable {P : Problem} {c : Coefficient} {a : Fraction}

/-- The fraction of a stored coefficient is built in words. -/
theorem built_of_reads (hc : c.Stored) (h : c.Reads a) : Fraction.Built .word a := by
  cases c with
  | integer value =>
      cases h
      exact .ofInt hc
  | fraction value =>
      cases h
      exact hc
  | text source => exact Fraction.built_of_ofText h

/-- Stored coefficients stand for built fractions, by induction on the two lists. -/
theorem built_of_forall₂ {l : List Coefficient} {fractions : List Fraction} (hl : ∀ c ∈ l, c.Stored)
    (h : List.Forall₂ Coefficient.Reads l fractions) : ∀ a ∈ fractions, Fraction.Built .word a := by
  induction h with
  | nil => exact nofun
  | cons hreads _ ih =>
      rw [List.forall_mem_cons] at hl ⊢
      exact ⟨built_of_reads hl.1 hreads, ih hl.2⟩

theorem built_of_rows {rows : List (List Coefficient)} {fractions : List (List Fraction)}
    (hrows : ∀ row ∈ rows, ∀ c ∈ row, c.Stored)
    (h : List.Forall₂ (List.Forall₂ Coefficient.Reads) rows fractions) :
    ∀ row ∈ fractions, ∀ a ∈ row, Fraction.Built .word a := by
  induction h with
  | nil => exact nofun
  | cons hrow _ ih =>
      rw [List.forall_mem_cons] at hrows ⊢
      exact ⟨built_of_forall₂ hrows.1 hrow, ih hrows.2⟩

/-- The tableau of a stored problem has its sizes and holds built fractions. -/
theorem Stored.laidOut (hP : P.Stored) {T : Tableau} (h : P.tableau = .ok (.ok T)) :
    T.Shaped ∧ T.constraints = P.matrix.length ∧ T.columns = P.objective.length ∧
      ∀ a ∈ T.entries, Fraction.Built .word a := by
  rcases reads_of_tableau h with ⟨A, b, c, hreads, hform⟩
  rcases Tableau.laidOut_of_ofStandardForm hform with ⟨hshaped, hconstraints, hcolumns, hentries⟩
  refine ⟨hshaped, hconstraints.trans hreads.matrix.length_eq.symm,
    hcolumns.trans hreads.objective.length_eq.symm, fun a ha => ?_⟩
  rcases hentries a ha with rfl | ha | ha | ⟨row, hrow, ha⟩
  · exact .ofInt (by decide)
  · exact built_of_forall₂ hP.objective hreads.objective a ha
  · exact built_of_forall₂ hP.rightHandSide hreads.rightHandSide a ha
  · exact built_of_rows hP.matrix hreads.matrix row hrow a ha

end Problem
end ExactSimplex
