import ExactSimplex.Json.Reader
import ExactSimplex.Json.Writer
import ExactSimplex.Solver.Method
import ExactSimplex.Solver.Solution
import ExactSimplex.Tableau.Json

/-!
# Solutions in documents

A solution is a record of its status, objective value, basis, values and number of cuts; the objective
value of a solution that has none is null.  Statuses and methods are written by name.

Main results:

- Theorem {lit}`Status.ofName_name`: the name of a status is read back.
-/

namespace ExactSimplex

/-- The status of a name. -/
def Status.ofName (name : String) : Option Status :=
  [Status.optimal, .infeasible, .unbounded].find? fun status => status.name == name

/-- A status is read back from its name. -/
theorem Status.ofName_name (status : Status) : Status.ofName status.name = some status := by
  cases status <;> rfl

/-- The document of a method: its name. -/
def Method.toJson (method : Method) : Json := Json.ofString method.name

namespace Solution

/-- The record of a solution. -/
def toJson (A : Arithmetic) (s : Solution) : Json :=
  Json.ofMembers [("status", Json.ofString s.status.name),
    ("objective_value", Json.ofOption (Fraction.toJson A) s.objectiveValue),
    ("basis", s.basis.toJson), ("values", .array (s.values.map (Fraction.toJson A))),
    ("cuts", Json.ofInt s.cuts)]

/-- The objective value of a record: absent, null, or a fraction. -/
def objectiveOfJson (A : Arithmetic) : Option Json → Calc (Option (Option Fraction))
  | none => pure (some none)
  | some .null => pure (some none)
  | some document => Option.map some <$> Fraction.ofJson A document

/-- The solution of a record. -/
def ofJson (A : Arithmetic) (document : Json) : Calc (Option Solution) :=
  match document.readFields 5 ["status", "objective_value", "basis", "values", "cuts"] with
  | some [some status, objective, some basis, some values, some cuts] =>
      match status.readText.bind Status.ofName, Basis.ofJson basis, values.itemsOf,
        cuts.readIndex with
      | some status, some B, some items, some cuts => do
          let objective ← objectiveOfJson A objective
          let values ← Fraction.listOfJson A items
          pure (do
            let objective ← objective
            let values ← values
            some ⟨status, objective, B, values, cuts⟩)
      | _, _, _, _ => pure none
  | _ => pure none

/-- The solution of a text. -/
def ofText (A : Arithmetic) (text : String) : Calc (Option Solution) :=
  match Json.ofText text.toList with
  | none => pure none
  | some document => ofJson A document

end Solution
end ExactSimplex
