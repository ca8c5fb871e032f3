import ExactSimplex.Json.Numeral

/-!
# Numerals as doubles

A numeral that is held as a value becomes a double: the leading digits that fit a word of 64 bits, times
a power of ten.  The word, the power and their product are each rounded to 53 significant bits, so
whether a numeral near the greatest double is still finite depends on how it is spelled.

Main results:

- Theorem {lit}`Json.roundToDouble_of_lt`: numbers of at most 53 bits are doubles already.
- Theorem {lit}`Json.takeWord_eq`: digits that fit a word are all taken.
- Theorem {lit}`Json.Numeral.isFinite_ofInt`: the integers of a word are finite.
-/

namespace ExactSimplex
namespace Json

/-- The number of significant bits of a double. -/
def doubleBits : Nat := 53

/-- Magnitudes from half way between the greatest double and the next power of two on are rounded to no
double. -/
def doubleBound : Nat := Nat.pow 2 1024 - Nat.pow 2 970

/-- The nearest number of at most 53 significant bits; half way between two it is the even one. -/
def roundToDouble (n : Nat) : Nat :=
  let unit := Nat.pow 2 (n.log2 + 1 - doubleBits)
  let kept := n / unit
  let rest := n % unit
  if unit < 2 * rest ∨ unit = 2 * rest ∧ kept % 2 = 1 then (kept + 1) * unit else kept * unit

/-- The greatest power of ten below the greatest double. -/
def greatestPower : Nat := 308

/-- Words are below this bound. -/
def wordBound : Nat := Nat.pow 2 64

/-- Appends leading digits to a word as long as it stays one, and counts the digits that are left. -/
def takeWord : (word : Nat) → List Char → Nat × Nat
  | word, [] => (word, 0)
  | word, c :: rest =>
      let next := 10 * word + (c.toNat - '0'.toNat)
      if next < wordBound then takeWord next rest else (word, rest.length + 1)

namespace Numeral

/-- The value of the exponent. -/
def scale (n : Numeral) : Int :=
  match n.exponent with
  | none => 0
  | some (true, digits) => -(Nat.ofDigitChars 10 digits 0 : Int)
  | some (false, digits) => Nat.ofDigitChars 10 digits 0

/-- The word and the power of ten that a numeral is computed from.  Digits before the point that do not
fit the word raise the power; digits after the point that do fit lower it. -/
def scaledWord (n : Numeral) : Nat × Int :=
  let fraction := n.fraction.getD []
  let (leading, dropped) := takeWord 0 n.whole
  let (word, unread) := takeWord leading fraction
  (word, n.scale + dropped - (fraction.length - unread : Nat))

/-- Whether the numeral is a finite double. -/
def isFinite (n : Numeral) : Bool :=
  let (word, power) := n.scaledWord
  if word = 0 ∨ power < 0 then true
  else if greatestPower < power then false
  else decide (roundToDouble word * roundToDouble (Nat.pow 10 power.toNat) < doubleBound)

end Numeral

example : Numeral.isFinite ⟨false, ['1'], some "7976931348623157".toList, some (false, "308".toList)⟩ =
    true := by
  decide +kernel

example : Numeral.isFinite ⟨false, ['1'], some "7976931348623158".toList, some (false, "308".toList)⟩ =
    false := by
  decide +kernel

/-! ## First facts -/

/-- An integer of at most as many bits as a double has is not rounded. -/
theorem roundToDouble_of_lt {n : Nat} (h : n < Nat.pow 2 doubleBits) : roundToDouble n = n := by
  have hlog : n.log2 + 1 - doubleBits = 0 := by
    by_cases hn : n = 0
    · subst hn
      rfl
    · have := (Nat.log2_lt hn).mpr h
      omega
  simp [roundToDouble, hlog, Nat.mod_one]

/-- Rounding never doubles a number. -/
theorem roundToDouble_le (n : Nat) : roundToDouble n ≤ 2 * n := by
  by_cases hn : n = 0
  · subst hn
    exact Nat.le_of_eq (roundToDouble_of_lt (by decide))
  · have hunit : Nat.pow 2 (n.log2 + 1 - doubleBits) ≤ n :=
      Nat.le_trans (Nat.pow_le_pow_right (by decide) (by unfold doubleBits; omega))
        (Nat.log2_self_le hn)
    have hkept := Nat.div_mul_le_self n (Nat.pow 2 (n.log2 + 1 - doubleBits))
    simp only [roundToDouble]
    split
    · rw [Nat.add_mul, Nat.one_mul]
      omega
    · omega

/-- Further digits never make a number smaller. -/
theorem le_ofDigitChars (digits : List Char) (word : Nat) :
    word ≤ Nat.ofDigitChars 10 digits word := by
  induction digits generalizing word with
  | nil => simp
  | cons c rest ih =>
      rw [Nat.ofDigitChars_cons]
      exact Nat.le_trans (by omega) (ih _)

/-- Digits whose number fits a word are all taken into it. -/
theorem takeWord_eq {digits : List Char} {word : Nat}
    (h : Nat.ofDigitChars 10 digits word < wordBound) :
    takeWord word digits = (Nat.ofDigitChars 10 digits word, 0) := by
  induction digits generalizing word with
  | nil => simp [takeWord]
  | cons c rest ih =>
      rw [Nat.ofDigitChars_cons] at h ⊢
      have hnext := Nat.lt_of_le_of_lt (le_ofDigitChars rest _) h
      simp only [takeWord, hnext, if_true]
      exact ih h

/-- The numeral of an integer that fits a word is finite. -/
theorem Numeral.isFinite_ofInt {n : Int} (h : n.natAbs < wordBound) :
    (Numeral.ofInt n).isFinite = true := by
  have hdigits : Nat.ofDigitChars 10 (Text.natText n.natAbs) 0 = n.natAbs :=
    Nat.ofDigitChars_ten_toDigits
  have hword : takeWord 0 (Text.natText n.natAbs) = (n.natAbs, 0) := by
    rw [takeWord_eq (by rw [hdigits]; exact h), hdigits]
  have hscaled : (Numeral.ofInt n).scaledWord = (n.natAbs, 0) := by
    simp [Numeral.scaledWord, Numeral.ofInt, Numeral.scale, hword, takeWord]
  have hround : roundToDouble n.natAbs * roundToDouble (Nat.pow 10 (0 : Int).toNat) < doubleBound := by
    have hone : roundToDouble (Nat.pow 10 (0 : Int).toNat) = 1 := roundToDouble_of_lt (by decide)
    rw [hone, Nat.mul_one]
    have hle := roundToDouble_le n.natAbs
    have hbound : 2 * wordBound < doubleBound := by decide +kernel
    omega
  simp only [Numeral.isFinite, hscaled]
  split
  · rfl
  · split
    · next hpower => exact absurd hpower (by decide)
    · exact decide_eq_true hround

end Json
end ExactSimplex
