import ExactSimplex.Fraction.Basic
import ExactSimplex.Json.Integer

/-!
# Fractions in documents

A fraction is a record of its numerator and denominator; reading it reduces the pair.

Main results:

- Theorem {lit}`Fraction.pairOfJson_toJson`: the stored pair is read back.
-/

namespace ExactSimplex
namespace Fraction

/-- The record of the stored pair. -/
def toJson (A : Arithmetic) (a : Fraction) : Json :=
  Json.ofMembers [("numerator", Json.ofInteger A a.num), ("denominator", Json.ofInteger A a.den)]

/-- The pair of a record, not reduced. -/
def pairOfJson (A : Arithmetic) (document : Json) : Option (Int × Int) := do
  match ← document.readFields 2 ["numerator", "denominator"] with
  | [some num, some den] =>
      let num ← Json.readInteger A num
      let den ← Json.readInteger A den
      some (num, den)
  | _ => none

/-- The reduced fraction of a record, zero if its denominator is zero. -/
def ofJson (A : Arithmetic) (document : Json) : Calc (Option Fraction) :=
  match pairOfJson A document with
  | none => pure none
  | some (num, den) => some <$> ofRatio A num den

/-- The fractions of a list of records, if all of them are. -/
def listOfJson (A : Arithmetic) : List Json → Calc (Option (List Fraction))
  | [] => pure (some [])
  | document :: rest => do
      match ← ofJson A document with
      | none => pure none
      | some a => Option.map (a :: ·) <$> listOfJson A rest

/-- The pair of a written fraction is read back, if the arithmetic holds both parts. -/
theorem pairOfJson_toJson {A : Arithmetic} {a : Fraction} (hnum : A.holds a.num = true)
    (hden : A.holds a.den = true) : pairOfJson A (a.toJson A) = some (a.num, a.den) := by
  have hfields : (a.toJson A).readFields 2 ["numerator", "denominator"] =
      some [some (Json.ofInteger A a.num), some (Json.ofInteger A a.den)] := by
    simp [toJson, Json.ofMembers, Json.readFields, Json.lookup]
  simp [pairOfJson, hfields, Json.readInteger_ofInteger hnum, Json.readInteger_ofInteger hden]

end Fraction
end ExactSimplex
