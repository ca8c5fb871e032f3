import ExactSimplex.Arithmetic

/-!
# Decimal integers in text

Integers are written in decimal with a leading minus sign where they are negative.  They are read
with an optional sign and at least one digit, and only if the arithmetic can hold them.  Exact
arithmetic also reads numerals whose digits are grouped by underscores.

Main results:

- Theorem {lit}`readDigits_natText`: reading the digits of a number gives the number.
- Theorem {lit}`readInt_intText`: reading a written integer gives the integer, if the arithmetic holds it.
- Theorem {lit}`intText_injective`: different integers are written differently.
-/

namespace ExactSimplex
namespace Text

/-- The decimal digits of a number. -/
def natText (n : Nat) : List Char := Nat.toDigits 10 n

/-- A decimal integer, with a minus sign if it is negative. -/
def intText : Int → List Char
  | .ofNat n => natText n
  | .negSucc n => '-' :: natText (n + 1)

/-- Reads one digit and then digits only; `grouped` numerals may also hold underscores after the
first digit. -/
def readDigits (grouped : Bool) : List Char → Option Nat
  | [] => none
  | first :: rest =>
      let digits := first :: if grouped then rest.filter (· != '_') else rest
      if digits.all Char.isDigit then some (Nat.ofDigitChars 10 digits 0) else none

/-- Reads digits after an optional sign. -/
def readSigned (grouped : Bool) : List Char → Option Int
  | '-' :: rest => (readDigits grouped rest).map fun n => -(n : Int)
  | '+' :: rest => (readDigits grouped rest).map fun n => (n : Int)
  | text => (readDigits grouped text).map fun n => (n : Int)

/-- Only exact arithmetic reads numerals grouped by underscores. -/
def readsGrouped : Arithmetic → Bool
  | .exact => true
  | .wrapping _ => false
  | .checked _ => false

/-- Reads an integer that the arithmetic can hold. -/
def readInt (A : Arithmetic) (text : List Char) : Option Int :=
  (readSigned (readsGrouped A) text).filter A.holds

/-- Indices and sizes are below this bound. -/
def indexBound : Nat := Nat.pow 2 64

/-- Reads an index: digits after an optional plus sign, below the bound for indices. -/
def readIndex : List Char → Option Nat
  | '+' :: rest => (readDigits false rest).filter (· < indexBound)
  | text => (readDigits false text).filter (· < indexBound)

/-- A natural number is written with digits only. -/
theorem isDigit_of_mem_natText {n : Nat} {c : Char} (h : c ∈ natText n) : c.isDigit = true :=
  Nat.isDigit_of_mem_toDigits (by decide) (by decide) h

/-- Every natural number has at least one digit. -/
theorem natText_ne_nil (n : Nat) : natText n ≠ [] :=
  Nat.toDigits_ne_nil

/-- A natural number is read back from its digits, whether or not they may be grouped. -/
theorem readDigits_natText (grouped : Bool) (n : Nat) : readDigits grouped (natText n) = some n := by
  cases htext : natText n with
  | nil => exact absurd htext (natText_ne_nil n)
  | cons first rest =>
      have hdigit : ∀ c ∈ first :: rest, c.isDigit = true := fun c hc =>
        isDigit_of_mem_natText (htext ▸ hc)
      have hungrouped : rest.filter (· != '_') = rest := by
        rw [List.filter_eq_self]
        rintro c hc
        have hc := hdigit c (List.mem_cons_of_mem _ hc)
        rw [bne_iff_ne]
        rintro rfl
        exact absurd hc (by decide)
      have hall : (first :: rest).all Char.isDigit = true := List.all_eq_true.mpr hdigit
      simp only [readDigits, hungrouped, ite_self, hall, if_true]
      rw [← htext, natText, Nat.ofDigitChars_ten_toDigits]

/-- A written integer holds digits and a minus sign only. -/
theorem mem_intText {n : Int} {c : Char} (h : c ∈ intText n) : c = '-' ∨ c.isDigit = true := by
  cases n with
  | ofNat n => exact Or.inr (isDigit_of_mem_natText h)
  | negSucc n => exact (List.mem_cons.mp h).imp id isDigit_of_mem_natText

/-- The text of an integer is not empty. -/
theorem intText_ne_nil (n : Int) : intText n ≠ [] := by
  cases n with
  | ofNat n => exact natText_ne_nil n
  | negSucc n => exact List.cons_ne_nil _ _

/-- An integer is read back from its text, whether or not digits may be grouped. -/
theorem readSigned_intText (grouped : Bool) (n : Int) : readSigned grouped (intText n) = some n := by
  cases n with
  | negSucc n => simp [intText, readSigned, readDigits_natText, Int.negSucc_eq]
  | ofNat n =>
      have hread := readDigits_natText grouped n
      cases htext : natText n with
      | nil => exact absurd htext (natText_ne_nil n)
      | cons first rest =>
          have hdigit : first.isDigit = true := isDigit_of_mem_natText (htext ▸ List.mem_cons_self)
          rw [htext] at hread
          rw [intText, htext]
          unfold readSigned
          split
          · next heq =>
              cases heq
              exact absurd hdigit (by decide)
          · next heq =>
              cases heq
              exact absurd hdigit (by decide)
          · rw [hread]
            rfl

/-- A written integer is read back if the arithmetic holds it. -/
theorem readInt_intText {A : Arithmetic} {n : Int} (h : A.holds n = true) :
    readInt A (intText n) = some n := by
  rw [readInt, readSigned_intText, Option.filter_some, if_pos h]

/-- Different integers have different texts. -/
theorem intText_injective {m n : Int} (h : intText m = intText n) : m = n := by
  have hread := readSigned_intText false m
  rw [h, readSigned_intText] at hread
  exact (Option.some.inj hread).symm

end Text
end ExactSimplex
