import ExactSimplex.Fraction.Json
import ExactSimplex.Tableau.Basic

/-!
# Tableaux and bases in documents

A tableau is a record of its sizes and its data row by row; reading does not compare them.  A basis is
an array of columns.

Main results:

- Theorem {lit}`Basis.ofJson_toJson`: a basis of indices is read back.
-/

namespace ExactSimplex

namespace Tableau

/-- The record of a tableau. -/
def toJson (A : Arithmetic) (T : Tableau) : Json :=
  Json.ofMembers [("n", Json.ofInt T.columns), ("m", Json.ofInt T.constraints),
    ("data", .array (T.entries.toList.map (Fraction.toJson A)))]

/-- The tableau of a record, whether or not it is well shaped. -/
def ofJson (A : Arithmetic) (document : Json) : Calc (Option Tableau) :=
  match document.readFields 3 ["n", "m", "data"] with
  | some [some columns, some constraints, some data] =>
      match columns.readIndex, constraints.readIndex, data.itemsOf with
      | some n, some m, some items => do
          let entries ← Fraction.listOfJson A items
          pure (entries.map fun entries => ⟨n, m, entries.toArray⟩)
      | _, _, _ => pure none
  | _ => pure none

end Tableau

namespace Basis

/-- The columns in order. -/
def toJson (B : Basis) : Json := .array (B.columns.map fun column : Nat => Json.ofInt column)

/-- The basis of an array of indices. -/
def ofJson (document : Json) : Option Basis := do
  let items ← document.itemsOf
  let columns ← items.mapM Json.readIndex
  some ⟨columns⟩

/-- A basis of indices is read back from its document. -/
theorem ofJson_toJson {B : Basis} (h : ∀ column ∈ B.columns, column < Text.indexBound) :
    ofJson B.toJson = some B := by
  have hitems : (B.columns.map fun column : Nat => Json.ofInt column).mapM Json.readIndex =
      some B.columns := by
    obtain ⟨columns⟩ := B
    induction columns with
    | nil => rfl
    | cons column rest ih =>
        simp only [List.map_cons, List.mapM_cons]
        rw [Json.readIndex_ofInt (h column List.mem_cons_self),
          ih fun c hc => h c (List.mem_cons_of_mem column hc)]
        rfl
  simp [ofJson, toJson, Json.itemsOf, hitems]

end Basis
end ExactSimplex
