import Mathlib.Data.List.Forall2
import ExactSimplex.Problem.Basic
import ExactSimplex.Proofs.Calc

/-!
# Reading the coefficients of a problem

The coefficients are read row by row, then the right-hand sides, then the objective.  Three nested readers do this,
and each ends at the first coefficient that is no fraction.  With all coefficients listed in their order, together
with their places, the three of them are one search for the first such coefficient; only if there is none, the
fractions are laid out.

Main results:

- Theorem {lit}`Problem.readCoefficient_eq`: a place only enters into the report.
- Theorem {lit}`Problem.refusal_readRows`: the rows are refused for their first coefficient that is no fraction.
- Theorem {lit}`Problem.tableau_cases`: a problem is refused for its first coefficient that is no fraction, or all
  of its coefficients are read.
-/

namespace ExactSimplex

open Calc

/-! ## Coefficients -/

namespace Coefficient

/-- What a coefficient is read as, wherever it stands. -/
def read : Coefficient → Calc (Except FractionSyntaxError Fraction)
  | .integer value => .ok (.ok (Fraction.ofInt value))
  | .text source => Fraction.ofText .word source.toList
  | .fraction value => .ok (.ok value)

/-- The coefficient stands for the fraction. -/
def Reads (c : Coefficient) (a : Fraction) : Prop := c.read = .ok (.ok a)

/-- The coefficient stands for some fraction. -/
def Readable (c : Coefficient) : Prop := ∃ a, c.Reads a

/-- A coefficient stands for one fraction. -/
theorem rightUnique_reads : Relator.RightUnique Reads := by
  intro c a a' ha ha'
  exact Except.ok.inj (Except.ok.inj (ha.symm.trans ha'))

end Coefficient

namespace Problem

variable {P : Problem} {c : Coefficient} {location : Location} {e : ProblemError} {fault : Fault}

/-- A place only enters into the report. -/
theorem readCoefficient_eq (location : Location) (c : Coefficient) :
    readCoefficient location c = Except.mapError (.coefficient location) <$> c.read := by
  cases c with
  | integer value => rfl
  | fraction value => rfl
  | text text =>
      rcases hread : Fraction.ofText .word text.toList with fault | e | a <;>
        simp [readCoefficient, Coefficient.read, hread, bind, Except.bind, Functor.map, Except.map] <;> rfl

/-- A coefficient is accepted as the fraction that it stands for. -/
theorem readCoefficient_eq_ok_iff {a : Fraction} : readCoefficient location c = .ok (.ok a) ↔ c.Reads a := by
  unfold Coefficient.Reads
  rw [readCoefficient_eq]
  rcases c.read with fault | e | a <;> simp [Except.mapError, Functor.map, Except.map]

/-! ## Refusals -/

section Refusals

variable {α β : Type} {answer : Calc (Except ProblemError α)}

/-- What is reported or stops, if there is no result. -/
def refusal : Calc (Except ProblemError α) → Option (Calc ProblemError)
  | .error fault => some (.error fault)
  | .ok (.error e) => some (.ok e)
  | .ok (.ok _) => none

/-- Nothing is refused exactly if there is a result. -/
theorem refusal_eq_none_iff : refusal answer = none ↔ ∃ a, answer = .ok (.ok a) := by
  rcases answer with fault | e | a <;> simp [refusal]

/-- What is refused is the error of the answer. -/
theorem refusal_eq_ok_iff : refusal answer = some (.ok e) ↔ answer = .ok (.error e) := by
  rcases answer with fault | e | a <;> simp [refusal]

/-- Goes on with a result, if there is one. -/
def andThen (answer : Calc (Except ProblemError α)) (next : α → Calc (Except ProblemError β)) :
    Calc (Except ProblemError β) := do
  match ← answer with
  | .error e => pure (.error e)
  | .ok a => next a

/-- There is a result exactly if both parts have one. -/
theorem andThen_eq_ok {next : α → Calc (Except ProblemError β)} {b : β} :
    andThen answer next = .ok (.ok b) ↔ ∃ a, answer = .ok (.ok a) ∧ next a = .ok (.ok b) := by
  rcases answer with fault | e | a <;> simp [andThen, bind, Except.bind, pure, Except.pure]

/-- The first refusal decides. -/
theorem refusal_andThen {next : α → Calc (Except ProblemError β)} {later : Option (Calc ProblemError)}
    (h : ∀ a, answer = .ok (.ok a) → refusal (next a) = later) :
    refusal (andThen answer next) = (refusal answer).or later := by
  rcases answer with fault | e | a
  · rfl
  · rfl
  · exact h a rfl

/-- A step that always has a result refuses nothing. -/
theorem refusal_andThen_pure (answer : Calc (Except ProblemError α)) (f : α → β) :
    refusal (andThen answer fun a => pure (.ok (f a))) = refusal answer := by
  rcases answer with fault | e | a <;> rfl

end Refusals

/-- What is reported of a coefficient at its place, if it is no fraction. -/
def refused (entry : Location × Coefficient) : Option (Calc ProblemError) :=
  refusal (readCoefficient entry.1 entry.2)

/-- Nothing is reported of a coefficient exactly if it is readable. -/
theorem refused_eq_none_iff : refused (location, c) = none ↔ c.Readable := by
  unfold refused Coefficient.Readable Coefficient.Reads
  rw [readCoefficient_eq]
  rcases c.read with fault | e | a <;> simp [refusal, Except.mapError, Functor.map, Except.map]

/-- The error of a coefficient names its place. -/
theorem refused_eq_ok_iff : refused (location, c) = some (.ok e) ↔
    ∃ reason, c.read = .ok (.error reason) ∧ e = .coefficient location reason := by
  unfold refused
  rw [readCoefficient_eq]
  rcases c.read with fault | reason | a <;>
    simp [refusal, Except.mapError, Functor.map, Except.map, eq_comm]

/-- Coefficients with their places, numbered from `index` on. -/
def placed (places : ℕ → Location) (index : ℕ) (l : List Coefficient) : List (Location × Coefficient) :=
  (l.zipIdx index).map fun entry => (places entry.2, entry.1)

/-- The coefficients of rows with their places, the rows being numbered from `index` on. -/
def placedRows (index : ℕ) (rows : List (List Coefficient)) : List (Location × Coefficient) :=
  (rows.zipIdx index).flatMap fun entry => placed (.matrix entry.2) 0 entry.1

/-- All coefficients with their places, in the order in which they are read. -/
def located (P : Problem) : List (Location × Coefficient) :=
  placedRows 0 P.matrix ++ (placed .rightHandSide 0 P.rightHandSide ++ placed .objective 0 P.objective)

example : located ⟨[[.integer 3, .integer 4], [.integer 5]], [.integer 6], [.text "7/8"], none, none⟩ =
    [(.matrix 0 0, .integer 3), (.matrix 0 1, .integer 4), (.matrix 1 0, .integer 5),
      (.rightHandSide 0, .integer 6), (.objective 0, .text "7/8")] :=
  rfl

/-- The coefficients of a list are read one after the other. -/
theorem readCoefficients_cons (places : ℕ → Location) (index : ℕ) (c : Coefficient) (rest : List Coefficient) :
    readCoefficients places index (c :: rest) =
      andThen (readCoefficient (places index) c) fun a =>
        andThen (readCoefficients places (index + 1) rest) fun tail => pure (.ok (a :: tail)) := by
  rw [readCoefficients]
  rcases readCoefficient (places index) c with fault | e | a
  · rfl
  · rfl
  · rcases readCoefficients places (index + 1) rest with fault | e | tail <;> rfl

/-- The rows of a matrix are read one after the other. -/
theorem readRows_cons (index : ℕ) (row : List Coefficient) (rest : List (List Coefficient)) :
    readRows index (row :: rest) =
      andThen (readCoefficients (Location.matrix index) 0 row) fun fractions =>
        andThen (readRows (index + 1) rest) fun tail => pure (.ok (fractions :: tail)) := by
  rw [readRows]
  rcases readCoefficients (Location.matrix index) 0 row with fault | e | fractions
  · rfl
  · rfl
  · rcases readRows (index + 1) rest with fault | e | tail <;> rfl

/-- A problem is read in the order matrix, right-hand sides, objective, and then laid out. -/
theorem tableau_eq (P : Problem) : P.tableau =
    andThen (readRows 0 P.matrix) fun A =>
      andThen (readCoefficients Location.rightHandSide 0 P.rightHandSide) fun b =>
        andThen (readCoefficients Location.objective 0 P.objective) fun c =>
          pure ((Tableau.ofStandardForm A b c).mapError .shape) := by
  unfold tableau
  rcases readRows 0 P.matrix with fault | e | A
  · rfl
  · rfl
  rcases readCoefficients Location.rightHandSide 0 P.rightHandSide with fault | e | b
  · rfl
  · rfl
  · rcases readCoefficients Location.objective 0 P.objective with fault | e | c <;> rfl

/-- Coefficients are refused for the first one that is no fraction, by induction on their list. -/
theorem refusal_readCoefficients (places : ℕ → Location) (index : ℕ) (l : List Coefficient) :
    refusal (readCoefficients places index l) = (placed places index l).findSome? refused := by
  induction l generalizing index with
  | nil => rfl
  | cons c rest ih =>
      have hplaced : placed places index (c :: rest) = [(places index, c)] ++ placed places (index + 1) rest := rfl
      rw [readCoefficients_cons, hplaced, List.findSome?_append, List.findSome?_singleton, ← ih]
      apply refusal_andThen
      intro a _
      exact refusal_andThen_pure _ (List.cons a)

/-- Rows are refused for the first coefficient that is no fraction, by induction on the rows. -/
theorem refusal_readRows (index : ℕ) (rows : List (List Coefficient)) :
    refusal (readRows index rows) = (placedRows index rows).findSome? refused := by
  induction rows generalizing index with
  | nil => rfl
  | cons row rest ih =>
      have hplaced : placedRows index (row :: rest) =
          placed (.matrix index) 0 row ++ placedRows (index + 1) rest := rfl
      rw [readRows_cons, hplaced, List.findSome?_append, ← ih, ← refusal_readCoefficients]
      apply refusal_andThen
      intro fractions _
      exact refusal_andThen_pure _ (List.cons fractions)

/-! ## Fractions of the coefficients -/

/-- What coefficients are read as, one by one. -/
theorem forall₂_of_readCoefficients {places : ℕ → Location} {index : ℕ} {l : List Coefficient}
    {fractions : List Fraction} (h : readCoefficients places index l = .ok (.ok fractions)) :
    List.Forall₂ Coefficient.Reads l fractions := by
  induction l generalizing index fractions with
  | nil =>
      cases pure_eq_ok.mp h
      exact .nil
  | cons c rest ih =>
      rw [readCoefficients_cons, andThen_eq_ok] at h
      rcases h with ⟨a, ha, h⟩
      rcases andThen_eq_ok.mp h with ⟨tail, htail, h⟩
      cases pure_eq_ok.mp h
      exact .cons (readCoefficient_eq_ok_iff.mp ha) (ih htail)

/-- What rows are read as, one by one. -/
theorem forall₂_of_readRows {index : ℕ} {rows : List (List Coefficient)} {fractions : List (List Fraction)}
    (h : readRows index rows = .ok (.ok fractions)) :
    List.Forall₂ (List.Forall₂ Coefficient.Reads) rows fractions := by
  induction rows generalizing index fractions with
  | nil =>
      cases pure_eq_ok.mp h
      exact .nil
  | cons row rest ih =>
      rw [readRows_cons, andThen_eq_ok] at h
      rcases h with ⟨first, hfirst, h⟩
      rcases andThen_eq_ok.mp h with ⟨tail, htail, h⟩
      cases pure_eq_ok.mp h
      exact .cons (forall₂_of_readCoefficients hfirst) (ih htail)

/-- The fractions of all coefficients of a problem. -/
structure Reads (P : Problem) (A : List (List Fraction)) (b c : List Fraction) : Prop where
  matrix : List.Forall₂ (List.Forall₂ Coefficient.Reads) P.matrix A
  rightHandSide : List.Forall₂ Coefficient.Reads P.rightHandSide b
  objective : List.Forall₂ Coefficient.Reads P.objective c

/-- A problem is refused for its first coefficient that is no fraction, or all of its coefficients are read and
the fractions are laid out. -/
theorem tableau_cases (P : Problem) :
    (∃ stop, P.located.findSome? refused = some stop ∧ refusal P.tableau = some stop) ∨
      P.located.findSome? refused = none ∧ ∃ A b c, P.Reads A b c ∧
        P.tableau = .ok ((Tableau.ofStandardForm A b c).mapError .shape) := by
  unfold located
  rw [tableau_eq, List.findSome?_append, List.findSome?_append, ← refusal_readRows, ← refusal_readCoefficients,
    ← refusal_readCoefficients]
  rcases hA : readRows 0 P.matrix with fault | e | A
  · exact Or.inl ⟨_, rfl, rfl⟩
  · exact Or.inl ⟨_, rfl, rfl⟩
  rcases hb : readCoefficients Location.rightHandSide 0 P.rightHandSide with fault | e | b
  · exact Or.inl ⟨_, rfl, rfl⟩
  · exact Or.inl ⟨_, rfl, rfl⟩
  rcases hc : readCoefficients Location.objective 0 P.objective with fault | e | c
  · exact Or.inl ⟨_, rfl, rfl⟩
  · exact Or.inl ⟨_, rfl, rfl⟩
  · refine Or.inr ⟨rfl, A, b, c, ⟨forall₂_of_readRows hA, forall₂_of_readCoefficients hb,
      forall₂_of_readCoefficients hc⟩, rfl⟩

/-- A tableau is laid out from the fractions of all coefficients. -/
theorem reads_of_tableau {T : Tableau} (h : P.tableau = .ok (.ok T)) :
    ∃ A b c, P.Reads A b c ∧ Tableau.ofStandardForm A b c = .ok T := by
  rcases tableau_cases P with ⟨stop, -, hstop⟩ | ⟨-, A, b, c, hreads, hform⟩
  · rw [refusal_eq_none_iff.mpr ⟨T, h⟩] at hstop
    cases hstop
  · refine ⟨A, b, c, hreads, ?_⟩
    rw [h, Except.ok.injEq] at hform
    cases hresult : Tableau.ofStandardForm A b c with
    | error e =>
        rw [hresult] at hform
        cases hform
    | ok U =>
        rw [hresult] at hform
        cases hform
        rfl

end Problem
end ExactSimplex
