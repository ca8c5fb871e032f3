import ExactSimplex.Json.Value

/-!
# Shapes of documents

A record is read from an object, whose members may come in any order and may be joined by unknown ones,
or from an array of its fields in order.  A repeated field is refused.  Integers are read from integer
numerals in the range of the arithmetic.

Main results:

- Theorems {lit}`Json.readInt_ofInt` and {lit}`Json.readIndex_ofInt`: an integer in range is read back.
-/

namespace ExactSimplex
namespace Json

/-- The value of a field: nothing if it is repeated, an absent value if it is missing. -/
def lookup (name : String) (members : List (Option (List Char) × Json)) : Option (Option Json) :=
  match members.filter fun member => member.1 == some name.toList with
  | [] => some none
  | [member] => some (some member.2)
  | _ => none

/-- The values of the named fields of a record.  As an array it has at least the first `required`
fields; the fields of an object that are missing are absent. -/
def readFields (required : Nat) (names : List String) : Json → Option (List (Option Json))
  | .array items =>
      if required ≤ items.length ∧ items.length ≤ names.length then
        some (items.map some ++ List.replicate (names.length - items.length) none)
      else none
  | .object members =>
      if members.all fun member => member.1.isSome then
        names.mapM fun name => lookup name members
      else none
  | _ => none

/-- Minus zero is an integer only where integers are wider than 64 bits. -/
def readsNegativeZero : Arithmetic → Bool
  | .exact => true
  | .wrapping bits => decide (64 < bits)
  | .checked bits => decide (64 < bits)

/-- An integer that the arithmetic can hold. -/
def readInt (A : Arithmetic) : Json → Option Int
  | .number n =>
      if n.isNegativeZero && !readsNegativeZero A then none else n.integer.filter A.holds
  | _ => none

/-- An index. -/
def readIndex : Json → Option Nat
  | .number n =>
      if n.negative then none
      else (n.integer.map Int.toNat).filter (· < Text.indexBound)
  | _ => none

/-- A text. -/
def readText : Json → Option String
  | .string text => text.map String.ofList
  | _ => none

/-- The items of an array. -/
def itemsOf : Json → Option (List Json)
  | .array items => some items
  | _ => none

/-- A value that may be absent or null. -/
def readOptional {α : Type} (read : Json → Option α) : Option Json → Option (Option α)
  | none => some none
  | some .null => some none
  | some document => (read document).map some

/-- The document of a value that may be missing. -/
def ofOption {α : Type} (write : α → Json) : Option α → Json
  | none => .null
  | some a => write a

/-- An integer that the arithmetic holds is read back from its document. -/
theorem readInt_ofInt {A : Arithmetic} {n : Int} (h : A.holds n = true) :
    readInt A (ofInt n) = some n := by
  have hzero : (Numeral.ofInt n).isNegativeZero = false := by
    have hdigits : Nat.ofDigitChars 10 (Text.natText n.natAbs) 0 = n.natAbs :=
      Nat.ofDigitChars_ten_toDigits
    simp only [Numeral.isNegativeZero, Numeral.ofInt, hdigits]
    by_cases hn : n < 0
    · have : n.natAbs ≠ 0 := by omega
      simp [this]
    · simp [hn]
  simp [readInt, ofInt, hzero, Numeral.integer_ofInt, Option.filter, h]

/-- An index is read back from its document. -/
theorem readIndex_ofInt {n : Nat} (h : n < Text.indexBound) :
    readIndex (ofInt n) = some n := by
  have hneg : (Numeral.ofInt n).negative = false := by simp [Numeral.ofInt]
  simp [readIndex, ofInt, hneg, Numeral.integer_ofInt, Option.filter, h]

end Json
end ExactSimplex
