/-!
# Structural failures

Reasons why a tableau cannot be built or a method cannot start or go on.  Infeasible and unbounded
problems are answers of a method, not failures.

Main results:

- Definition {lit}`SolveError.message`: the report of every failure.
-/

namespace ExactSimplex

/-- The part of a problem in standard form whose length is wrong. -/
inductive ProblemPart where
  | rightHandSide
  | constraintRow
  deriving Repr, DecidableEq

/-- The name of a part in reports. -/
def ProblemPart.name : ProblemPart → String
  | .rightHandSide => "right-hand side"
  | .constraintRow => "constraint row"

/-- Why a list of columns is no starting basis of a tableau. -/
inductive BasisDefect where
  | wrongLength (expected found : Nat)
  | outOfRange (column columns : Nat)
  | repeated (column : Nat)
  /-- The basis columns are not the unit vectors of their rows. -/
  | notIdentity
  deriving Repr, DecidableEq

/-- The report of a basis defect. -/
def BasisDefect.message : BasisDefect → String
  | .wrongLength expected found => s!"expected {expected} entries, found {found}"
  | .outOfRange column columns => s!"column {column} is out of range 1..={columns}"
  | .repeated column => s!"column {column} appears twice"
  | .notIdentity => "basis columns do not form an identity in the tableau"

/-- Failures that end a solve or the construction of a tableau. -/
inductive SolveError where
  | empty
  | shape (rows columns found : Nat)
  | raggedRow (row expected found : Nat)
  | dimension (part : ProblemPart) (expected found : Nat)
  | invalidBasis (defect : BasisDefect)
  | noStartingBasis
  /-- A constraint row vanishes once the artificial variables are out. -/
  | notFullRank (row : Nat)
  deriving Repr, DecidableEq

/-- The report of a failure. -/
def SolveError.message : SolveError → String
  | .empty => "tableau must have at least one row and one column"
  | .shape rows columns found =>
      s!"expected {rows} rows of {columns} coefficients, found {found} coefficients"
  | .raggedRow row expected found => s!"row {row} has {found} entries, expected {expected}"
  | .dimension part expected found =>
      let name := part.name
      s!"{name} has {found} entries, expected {expected}"
  | .invalidBasis defect =>
      let reason := defect.message
      s!"invalid basis: {reason}"
  | .noStartingBasis => "no full starting basis found"
  | .notFullRank row =>
      s!"matrix not full rank: constraint row {row} is linearly dependent"

end ExactSimplex
