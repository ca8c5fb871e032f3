import ExactSimplex.Fraction.Json
import ExactSimplex.Json.Reader
import ExactSimplex.Json.Writer
import ExactSimplex.Problem.Basic
import ExactSimplex.Tableau.Json

/-!
# Problems in documents

A problem is a record of {lit}`A`, {lit}`b` and {lit}`c`, followed by an optional {lit}`mode` and an
optional {lit}`basis`.  A coefficient is an integer, a text, or the record of a fraction.  A coefficient
is held as a whole before its kind is known, so everything in it, fields that are then ignored
included, must be a value: finite numerals, texts without unpaired surrogates, and no more than 127
levels of nesting in the whole document.

Main results:

- Theorem {lit}`Problem.coefficientOfJson_text`: a text is read back as a text.
-/

namespace ExactSimplex
namespace Problem

/-- Levels of nesting of a document, if some of it is held as a whole. -/
def nestingLimit : Nat := 127

/-- The coefficient of a document that stands below `outer` levels of nesting. -/
def coefficientOfJson (outer : Nat) (document : Json) : Calc (Option Coefficient) :=
  if document.isHeld (nestingLimit - outer) then
    match document with
    | .number _ => pure ((document.readInt .word).map .integer)
    | .string text => pure (text.map fun text => .text (String.ofList text))
    | _ => Option.map Coefficient.fraction <$> Fraction.ofJson .word document
  else pure none

/-- The coefficients of documents below `outer` levels of nesting. -/
def coefficientsOfJson (outer : Nat) : List Json → Calc (Option (List Coefficient))
  | [] => pure (some [])
  | document :: rest => do
      match ← coefficientOfJson outer document with
      | none => pure none
      | some coefficient => Option.map (coefficient :: ·) <$> coefficientsOfJson outer rest

/-- The coefficients of an array. -/
def vectorOfJson (outer : Nat) (document : Json) : Calc (Option (List Coefficient)) :=
  match document.itemsOf with
  | none => pure none
  | some items => coefficientsOfJson (outer + 1) items

/-- The rows of an array of arrays. -/
def rowsOfJson (outer : Nat) : List Json → Calc (Option (List (List Coefficient)))
  | [] => pure (some [])
  | document :: rest => do
      match ← vectorOfJson outer document with
      | none => pure none
      | some row => Option.map (row :: ·) <$> rowsOfJson outer rest

/-- The basis of a document, if there is one. -/
def basisOfJson (document : Option Json) : Option (Option (List Nat)) :=
  Json.readOptional (fun document => (Basis.ofJson document).map Basis.columns) document

/-- The problem of a record. -/
def ofJson (document : Json) : Calc (Option Problem) :=
  match document.readFields 3 ["A", "b", "c", "mode", "basis"] with
  | some [some A, some b, some c, mode, basis] =>
      match A.itemsOf, Json.readOptional Json.readText mode, basisOfJson basis with
      | some rows, some mode, some basis => do
          let matrix ← rowsOfJson 2 rows
          let rightHandSide ← vectorOfJson 1 b
          let objective ← vectorOfJson 1 c
          pure (do
            let matrix ← matrix
            let rightHandSide ← rightHandSide
            let objective ← objective
            some ⟨matrix, rightHandSide, objective, mode, basis⟩)
      | _, _, _ => pure none
  | _ => pure none

/-- The problem of a text. -/
def ofText (text : String) : Calc (Except ProblemError Problem) :=
  match Json.ofText text.toList with
  | none => pure (.error .json)
  | some document => do
      match ← ofJson document with
      | none => pure (.error .json)
      | some P => pure (.ok P)

/-- The document of a coefficient. -/
def coefficientToJson : Coefficient → Json
  | .integer value => Json.ofInt value
  | .text text => Json.ofString text
  | .fraction value => value.toJson .word

/-- The record of a problem; what is not given is left out. -/
def toJson (P : Problem) : Json :=
  Json.ofMembers (
    [("A", .array (P.matrix.map fun row => .array (row.map coefficientToJson))),
     ("b", .array (P.rightHandSide.map coefficientToJson)),
     ("c", .array (P.objective.map coefficientToJson))] ++
    (P.mode.map fun mode => ("mode", Json.ofString mode)).toList ++
    (P.basis.map fun basis => ("basis", Basis.toJson ⟨basis⟩)).toList)

/-- A coefficient that is a text is read back as this text. -/
theorem coefficientOfJson_text (outer : Nat) (text : String) :
    coefficientOfJson outer (coefficientToJson (.text text)) = .ok (some (.text text)) := by
  have hheld : (Json.ofString text).isHeld (nestingLimit - outer) = true := by
    unfold Json.ofString Json.isHeld
    rfl
  simp [coefficientToJson, coefficientOfJson, hheld]
  simp [Json.ofString, pure, Except.pure]

end Problem
end ExactSimplex
