import ExactSimplex.Fraction.Basic
import ExactSimplex.Text.Blank
import ExactSimplex.Text.Numeral

/-!
# Fractions in text

A fraction with denominator one is written as its numerator, any other as numerator, slash and
denominator.  Reading trims blanks around the whole text and around the slash, splits at the first
slash and reduces the pair.

Main results:

- Theorems {lit}`Fraction.splitAtSlash_append` and {lit}`Fraction.splitAtSlash_of_not_mem`: the split is at
  the first slash, if there is one.
-/

namespace ExactSimplex
namespace Fraction

/-- The written form: the numerator alone if the denominator is one. -/
def text (a : Fraction) : List Char :=
  if a.isInteger then Text.intText a.num
  else Text.intText a.num ++ '/' :: Text.intText a.den

instance : ToString Fraction := ⟨fun a => String.ofList a.text⟩

end Fraction

/-- The report of an arithmetic error. -/
def ArithmeticError.message : ArithmeticError → String
  | .zeroDenominator numerator => s!"denominator cannot be zero (numerator {numerator})"
  | .divisionByZero dividend => s!"division of {dividend} by a zero fraction"

/-- Why a text is no fraction. -/
inductive FractionSyntaxError where
  | empty
  /-- A part of the text is not an integer of the arithmetic in use. -/
  | invalidInteger (part : String)
  | arithmetic (error : ArithmeticError)
  deriving Repr, DecidableEq

/-- The report of a text that is no fraction. -/
def FractionSyntaxError.message : FractionSyntaxError → String
  | .empty => "empty fraction"
  | .invalidInteger part => s!"invalid integer '{part}' in fraction"
  | .arithmetic error => error.message

namespace Fraction

/-- The texts before and after the first slash, if there is one. -/
def splitAtSlash : List Char → Option (List Char × List Char)
  | [] => none
  | c :: rest =>
      if c = '/' then some ([], rest)
      else (splitAtSlash rest).map fun parts => (c :: parts.1, parts.2)

/-- Reads one part of a fraction. -/
def readPart (A : Arithmetic) (part : List Char) : Except FractionSyntaxError Int :=
  match Text.readInt A (Text.trim part) with
  | some n => .ok n
  | none => .error (.invalidInteger (String.ofList (Text.trim part)))

/-- Reads `n` or `n/d`; the numerator is looked at first. -/
def ofText (A : Arithmetic) (source : List Char) : Calc (Except FractionSyntaxError Fraction) :=
  let trimmed := Text.trim source
  if trimmed.isEmpty then pure (.error .empty)
  else match splitAtSlash trimmed with
    | none => pure ((readPart A trimmed).map ofInt)
    | some (left, right) =>
        match readPart A left, readPart A right with
        | .error e, _ => pure (.error e)
        | .ok _, .error e => pure (.error e)
        | .ok num, .ok den => do
            match ← tryOfRatio A num den with
            | .ok a => pure (.ok a)
            | .error e => pure (.error (.arithmetic e))

/-- The split is at the first slash. -/
theorem splitAtSlash_append {left : List Char} (h : '/' ∉ left) (right : List Char) :
    splitAtSlash (left ++ '/' :: right) = some (left, right) := by
  induction left with
  | nil => simp [splitAtSlash]
  | cons c rest ih =>
      have hc : c ≠ '/' := fun hc => h (by simp [hc])
      have hrest : '/' ∉ rest := fun hrest => h (List.mem_cons_of_mem c hrest)
      simp [splitAtSlash, hc, ih hrest]

/-- A text without a slash is not split. -/
theorem splitAtSlash_of_not_mem {text : List Char} (h : '/' ∉ text) : splitAtSlash text = none := by
  induction text with
  | nil => rfl
  | cons c rest ih =>
      rw [List.mem_cons, not_or] at h
      simp [splitAtSlash, Ne.symm h.1, ih h.2]

end Fraction
end ExactSimplex
