import ExactSimplex.Binary.Word
import ExactSimplex.Fraction.Text
import ExactSimplex.Solver.Solve

/-!
# Problems in standard form

A problem describes "minimize `c x` subject to `A x = b` and `x ≥ 0`" with coefficients that are
integers, texts or fractions, and may name a method and a starting basis.  The texts are read when the
tableau is laid out: the rows of `A` first, then `b`, then `c`.

Main definitions:

- {lit}`Problem.tableau`: the tableau of a problem, or the first defect of its texts.
- {lit}`Problem.solver`: the solver that a problem asks for.
-/

namespace ExactSimplex

/-- A coefficient as it was given. -/
inductive Coefficient where
  | integer (value : Int)
  | text (text : String)
  | fraction (value : Fraction)
  deriving Repr, DecidableEq

/-- The place of a coefficient. -/
inductive Location where
  | matrix (row column : Nat)
  | rightHandSide (row : Nat)
  | objective (column : Nat)
  deriving Repr, DecidableEq

/-- The name of a place in reports. -/
def Location.text : Location → String
  | .matrix row column => s!"A[{row}][{column}]"
  | .rightHandSide row => s!"b[{row}]"
  | .objective column => s!"c[{column}]"

/-- A program in standard form. -/
structure Problem where
  /-- The rows of `A`. -/
  matrix : List (List Coefficient)
  rightHandSide : List Coefficient
  objective : List Coefficient
  /-- The name of a method. -/
  mode : Option String := none
  /-- A starting basis. -/
  basis : Option (List Nat) := none
  deriving Repr, DecidableEq

/-- Why a problem cannot be read or laid out. -/
inductive ProblemError where
  | file (path reason : String)
  | json
  | coefficient (location : Location) (error : FractionSyntaxError)
  | method (error : UnknownMethod)
  | shape (error : SolveError)
  deriving Repr, DecidableEq

/-- The report of a problem that cannot be read or laid out. -/
def ProblemError.message : ProblemError → String
  | .file path reason => s!"cannot read {path}: {reason}"
  | .json => "invalid problem JSON: the text is not a problem description"
  | .coefficient location error =>
      let place := location.text
      let reason := error.message
      s!"coefficient {place}: {reason}"
  | .method error => error.message
  | .shape error => error.message

namespace Problem

/-- The fraction of a coefficient. -/
def readCoefficient (location : Location) : Coefficient → Calc (Except ProblemError Fraction)
  | .integer value => pure (.ok (Fraction.ofInt value))
  | .fraction value => pure (.ok value)
  | .text text => do
      match ← Fraction.ofText .word text.toList with
      | .ok a => pure (.ok a)
      | .error e => pure (.error (.coefficient location e))

/-- The fractions of coefficients whose places are numbered from `index` on; the first that cannot be
read decides. -/
def readCoefficients (location : Nat → Location) :
    (index : Nat) → List Coefficient → Calc (Except ProblemError (List Fraction))
  | _, [] => pure (.ok [])
  | index, coefficient :: rest => do
      match ← readCoefficient (location index) coefficient with
      | .error e => pure (.error e)
      | .ok a => do
          match ← readCoefficients location (index + 1) rest with
          | .error e => pure (.error e)
          | .ok tail => pure (.ok (a :: tail))

/-- The fractions of rows numbered from `index` on. -/
def readRows : (index : Nat) → List (List Coefficient) →
    Calc (Except ProblemError (List (List Fraction)))
  | _, [] => pure (.ok [])
  | index, row :: rest => do
      match ← readCoefficients (Location.matrix index) 0 row with
      | .error e => pure (.error e)
      | .ok fractions => do
          match ← readRows (index + 1) rest with
          | .error e => pure (.error e)
          | .ok tail => pure (.ok (fractions :: tail))

/-- The tableau of the problem. -/
def tableau (P : Problem) : Calc (Except ProblemError Tableau) := do
  match ← readRows 0 P.matrix with
  | .error e => pure (.error e)
  | .ok A => do
      match ← readCoefficients Location.rightHandSide 0 P.rightHandSide with
      | .error e => pure (.error e)
      | .ok b => do
          match ← readCoefficients Location.objective 0 P.objective with
          | .error e => pure (.error e)
          | .ok c => pure ((Tableau.ofStandardForm A b c).mapError .shape)

/-- The method that the problem names, if it names one. -/
def method (P : Problem) : Except ProblemError (Option Method) :=
  match P.mode with
  | none => .ok none
  | some mode =>
      match Method.ofText mode with
      | .ok method => .ok (some method)
      | .error e => .error (.method e)

/-- The solver that the problem asks for. -/
def solver (P : Problem) : Except ProblemError Solver :=
  match P.method with
  | .error e => .error e
  | .ok method => .ok ⟨method.getD .simplex, P.basis.map Basis.mk⟩

/-- Equality of two coefficients of the same kind, fractions being compared by value. -/
def sameCoefficient : Coefficient → Coefficient → Calc Bool
  | .integer a, .integer b => pure (a == b)
  | .text s, .text t => pure (s == t)
  | .fraction a, .fraction b => Fraction.eq .word a b
  | _, _ => pure false

/-- Equality of coefficients one by one. -/
def sameCoefficients : List Coefficient → List Coefficient → Calc Bool
  | [], [] => pure true
  | a :: as, b :: bs => do
      if ← sameCoefficient a b then sameCoefficients as bs else pure false
  | _, _ => pure false

/-- Equality of rows one by one. -/
def sameRows : List (List Coefficient) → List (List Coefficient) → Calc Bool
  | [], [] => pure true
  | a :: as, b :: bs => do
      if ← sameCoefficients a b then sameRows as bs else pure false
  | _, _ => pure false

/-- Equality of two problems, fractions being compared by value. -/
def same (P Q : Problem) : Calc Bool := do
  if P.mode = Q.mode ∧ P.basis = Q.basis then
    if ← sameRows P.matrix Q.matrix then
      if ← sameCoefficients P.rightHandSide Q.rightHandSide then
        sameCoefficients P.objective Q.objective
      else pure false
    else pure false
  else pure false

end Problem
end ExactSimplex
