import ExactSimplex.Json.Double

/-!
# JSON documents

A document keeps its numerals as they are spelled.  A string whose escapes leave a surrogate unpaired is
no text; such a string may stand where it is skipped, but nowhere else.

Main results:

- Theorem {lit}`Json.isHeld_ofInt`: the integers of a word can be held as values.
-/

namespace ExactSimplex

/-- A JSON document. -/
inductive Json where
  | null
  | boolean (value : Bool)
  | number (value : Json.Numeral)
  /-- A string; none if it holds an unpaired surrogate. -/
  | string (text : Option (List Char))
  | array (items : List Json)
  | object (members : List (Option (List Char) × Json))

namespace Json

instance : Inhabited Json := ⟨.null⟩

/-- The document of an integer. -/
def ofInt (n : Int) : Json := .number (.ofInt n)

/-- The document of a text. -/
def ofString (text : String) : Json := .string (some text.toList)

/-- The document with the given members. -/
def ofMembers (members : List (String × Json)) : Json :=
  .object (members.map fun member => (some member.1.toList, member.2))

mutual

/-- Whether the document can be held as a value within `depth` levels of nesting: all its strings are
texts and all its numerals finite. -/
def isHeld : (depth : Nat) → Json → Bool
  | _, .null => true
  | _, .boolean _ => true
  | _, .number n => n.isFinite
  | _, .string text => text.isSome
  | 0, .array _ => false
  | depth + 1, .array items => areHeld depth items
  | 0, .object _ => false
  | depth + 1, .object members => membersHeld depth members

/-- Whether all items can be held. -/
def areHeld : (depth : Nat) → List Json → Bool
  | _, [] => true
  | depth, item :: rest => isHeld depth item && areHeld depth rest

/-- Whether all members can be held. -/
def membersHeld : (depth : Nat) → List (Option (List Char) × Json) → Bool
  | _, [] => true
  | depth, (key, value) :: rest => key.isSome && isHeld depth value && membersHeld depth rest

end

/-- The document of an integer that fits a word is held at every depth. -/
theorem isHeld_ofInt {n : Int} (h : n.natAbs < wordBound) (depth : Nat) :
    (ofInt n).isHeld depth = true := by
  unfold ofInt isHeld
  exact Numeral.isFinite_ofInt h

end Json
end ExactSimplex
