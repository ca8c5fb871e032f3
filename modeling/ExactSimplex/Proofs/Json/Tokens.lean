import ExactSimplex.Json.Reader
import ExactSimplex.Json.Writer
import Mathlib.Tactic.SplitIfs

/-!
# Numerals and strings are read back

A numeral is read up to its end, which shows in the character after it: a digit, a point or an exponent
would continue it.  A string is read up to its closing quote, one character for every escape that stands
for it.

Main results:

- Theorem {lit}`Json.readNumeral_writeNumeral`: a well spelled numeral is read back.
- Theorem {lit}`Json.readPiece_escape`: the written form of a character is read as this character.
- Theorem {lit}`Json.readString_append`: a text is read back from between its quotes.
-/

namespace ExactSimplex
namespace Json

variable {rest : List Char}

/-! ## Numerals -/

/-- At least one digit and nothing else. -/
def IsDigits (digits : List Char) : Prop := digits ≠ [] ∧ ∀ c ∈ digits, c.isDigit = true

/-- A numeral that follows the grammar: no digits are missing, and no zero leads. -/
structure Numeral.WellSpelled (n : Numeral) : Prop where
  whole : IsDigits n.whole
  no_leading_zero : n.whole.head? = some '0' → n.whole.length = 1
  fraction : ∀ digits, n.fraction = some digits → IsDigits digits
  exponent : ∀ down digits, n.exponent = some (down, digits) → IsDigits digits

/-- The text does not continue a numeral. -/
def EndsNumeral (text : List Char) : Prop :=
  ∀ c, text.head? = some c → c.isDigit = false ∧ c ≠ '.' ∧ c ≠ 'e' ∧ c ≠ 'E'

/-- Digits are read up to the first character that is none. -/
theorem readDigits_append {digits : List Char} (hdigits : IsDigits digits)
    (hrest : ∀ c, rest.head? = some c → c.isDigit = false) :
    readDigits (digits ++ rest) = some (digits, rest) := by
  rw [readDigits, takeDigits_append hdigits.2 hrest]
  cases digits with
  | nil => exact absurd rfl hdigits.1
  | cons c digits => rfl

/-- The digits before the point are read if no zero leads them. -/
theorem readWhole_append {digits : List Char} (hdigits : IsDigits digits)
    (hzero : digits.head? = some '0' → digits.length = 1)
    (hrest : ∀ c, rest.head? = some c → c.isDigit = false) :
    readWhole (digits ++ rest) = some (digits, rest) := by
  simp only [readWhole, readDigits_append hdigits hrest, bind, Option.bind]
  rw [if_neg fun h => h.2 (hzero h.1)]

/-- What follows a numeral does not continue its digits. -/
theorem EndsNumeral.not_digit (h : EndsNumeral rest) (c : Char) (hc : rest.head? = some c) :
    c.isDigit = false :=
  (h c hc).1

/-- Without a point there is no fraction to read. -/
theorem readFraction_of_ends (h : ∀ c, rest.head? = some c → c ≠ '.') :
    readFraction rest = some (none, rest) := by
  unfold readFraction
  split
  · next after => exact absurd rfl (h '.' rfl)
  · rfl

/-- Without an exponent mark there is no exponent to read. -/
theorem readExponent_of_ends (h : ∀ c, rest.head? = some c → c ≠ 'e' ∧ c ≠ 'E') :
    readExponent rest = some (none, rest) := by
  cases rest with
  | nil => rfl
  | cons c after => simp [readExponent, h c rfl]

/-- The written exponent. -/
def writeExponent : Option (Bool × List Char) → List Char
  | none => []
  | some (down, digits) => 'e' :: (if down then '-' :: digits else digits)

/-- The written digits after the point. -/
def writeFraction : Option (List Char) → List Char
  | none => []
  | some digits => '.' :: digits

/-- A written numeral consists of sign, digits, fraction and exponent. -/
theorem writeNumeral_eq (n : Numeral) : writeNumeral n =
    (if n.negative then ['-'] else []) ++ (n.whole ++ (writeFraction n.fraction ++
      writeExponent n.exponent)) := by
  rw [← List.append_assoc, ← List.append_assoc]
  rfl

/-- A written exponent is read back if what comes after it does not continue the numeral. -/
theorem readExponent_append {exponent : Option (Bool × List Char)}
    (hexponent : ∀ down digits, exponent = some (down, digits) → IsDigits digits)
    (hrest : EndsNumeral rest) :
    readExponent (writeExponent exponent ++ rest) = some (exponent, rest) := by
  rcases exponent with - | ⟨down, digits⟩
  · exact readExponent_of_ends fun c hc => (hrest c hc).2.2
  · have hdigits := hexponent down digits rfl
    have hread := readDigits_append hdigits hrest.not_digit
    cases down with
    | true => simp [writeExponent, readExponent, hread]
    | false =>
        -- The first digit is neither of the two signs.
        rcases digits with - | ⟨c, digits⟩
        · exact absurd rfl hdigits.1
        · have hc := hdigits.2 c List.mem_cons_self
          have hminus : c ≠ '-' := fun h => by simp [h] at hc
          have hplus : c ≠ '+' := fun h => by simp [h] at hc
          rw [List.cons_append] at hread
          simp [writeExponent, readExponent, hminus, hplus, hread]

/-- A written fraction is read back if no digit comes after it. -/
theorem readFraction_append {fraction : Option (List Char)}
    (hfraction : ∀ digits, fraction = some digits → IsDigits digits)
    (hrest : ∀ c, rest.head? = some c → c.isDigit = false ∧ c ≠ '.') :
    readFraction (writeFraction fraction ++ rest) = some (fraction, rest) := by
  cases fraction with
  | none => exact readFraction_of_ends fun c hc => (hrest c hc).2
  | some digits =>
      have hread := readDigits_append (hfraction digits rfl) fun c hc => (hrest c hc).1
      simp [writeFraction, readFraction, hread]

/-- What is written after the digits before the point does not continue them. -/
theorem head_writeExponent (exponent : Option (Bool × List Char)) (hrest : EndsNumeral rest) (c : Char)
    (hc : (writeExponent exponent ++ rest).head? = some c) : c.isDigit = false ∧ c ≠ '.' := by
  rcases exponent with - | ⟨down, digits⟩
  · exact ⟨(hrest c hc).1, (hrest c hc).2.1⟩
  · obtain rfl : 'e' = c := Option.some.inj hc
    decide

/-- What follows the digits before the point is no digit. -/
theorem head_writeFraction (fraction : Option (List Char))
    (hrest : ∀ c, rest.head? = some c → c.isDigit = false ∧ c ≠ '.') (c : Char)
    (hc : (writeFraction fraction ++ rest).head? = some c) : c.isDigit = false := by
  cases fraction with
  | none => exact (hrest c hc).1
  | some digits =>
      obtain rfl : '.' = c := Option.some.inj hc
      decide

/-- A numeral is read back after its sign. -/
theorem readMagnitude_append {n : Numeral} (hn : n.WellSpelled) (hrest : EndsNumeral rest) :
    readMagnitude n.negative (n.whole ++ (writeFraction n.fraction ++ (writeExponent n.exponent ++ rest))) =
      some (n, rest) := by
  have hexponent := readExponent_append hn.exponent hrest
  have hfraction := readFraction_append hn.fraction
    (head_writeExponent n.exponent hrest)
  have hwhole := readWhole_append hn.whole hn.no_leading_zero
    (head_writeFraction n.fraction (head_writeExponent n.exponent hrest))
  simp [readMagnitude, hwhole, hfraction, hexponent, bind, Option.bind]

/-- A numeral begins with a digit or a minus sign. -/
theorem exists_writeNumeral {n : Numeral} (hn : n.WellSpelled) :
    ∃ c text, writeNumeral n = c :: text ∧ (c.isDigit = true ∨ c = '-') := by
  rw [writeNumeral_eq]
  cases n.negative with
  | true => exact ⟨'-', _, rfl, Or.inr rfl⟩
  | false =>
      rcases hwhole : n.whole with - | ⟨c, digits⟩
      · exact absurd hwhole hn.whole.1
      · exact ⟨c, _, rfl, Or.inl (hn.whole.2 c (hwhole ▸ List.mem_cons_self))⟩

/-- A well spelled numeral is read back from a text that does not continue it. -/
theorem readNumeral_writeNumeral {n : Numeral} (hn : n.WellSpelled) (hrest : EndsNumeral rest) :
    readNumeral (writeNumeral n ++ rest) = some (n, rest) := by
  have hmagnitude := readMagnitude_append hn hrest
  rw [writeNumeral_eq]
  simp only [List.append_assoc]
  cases hsign : n.negative with
  | true =>
      rw [hsign] at hmagnitude
      exact hmagnitude
  | false =>
      rw [hsign] at hmagnitude
      rcases hwhole : n.whole with - | ⟨c, digits⟩
      · exact absurd hwhole hn.whole.1
      · have hc := hn.whole.2 c (hwhole ▸ List.mem_cons_self)
        have hminus : c ≠ '-' := fun h => by simp [h] at hc
        rw [hwhole] at hmagnitude
        simpa [readNumeral, hminus] using hmagnitude

/-- Only the digits of zero begin with a zero, by induction on the number. -/
theorem head_natText {n : Nat} (hn : n ≠ 0) : (Text.natText n).head? ≠ some '0' := by
  induction n using Nat.strongRecOn with
  | ind n ih =>
      unfold Text.natText
      rcases Nat.lt_or_ge n 10 with hlt | hge
      · rw [Nat.toDigits_of_lt_base hlt]
        intro h
        exact hn (Nat.digitChar_eq_zero.mp (Option.some.inj h))
      · have hquotient : n / 10 ≠ 0 := by omega
        have hhead := ih (n / 10) (by omega) hquotient
        unfold Text.natText at hhead
        rw [Nat.toDigits_of_base_le (by decide) hge]
        rcases hdigits : Nat.toDigits 10 (n / 10) with - | ⟨c, digits⟩
        · exact absurd hdigits Nat.toDigits_ne_nil
        · rwa [hdigits] at hhead

/-- The numeral of an integer is well spelled. -/
theorem Numeral.wellSpelled_ofInt (n : Int) : (Numeral.ofInt n).WellSpelled where
  whole := ⟨Nat.toDigits_ne_nil, fun _ => Nat.isDigit_of_mem_toDigits (by decide) (by decide)⟩
  no_leading_zero := by
    intro hhead
    have hzero : n.natAbs = 0 := by
      by_cases hne : n.natAbs = 0
      · exact hne
      · exact absurd hhead (head_natText hne)
    show (Text.natText n.natAbs).length = 1
    rw [hzero]
    rfl
  fraction := nofun
  exponent := nofun

/-! ## Strings -/

/-- A hexadecimal digit is read as its value. -/
theorem hexValue_hexDigit {value : Nat} (h : value < 16) : hexValue (hexDigit value) = some value := by
  have hall : ∀ value < 16, hexValue (hexDigit value) = some value := by decide
  exact hall value h

/-- Four hexadecimal digits, of which the first two are zero, are a code unit below 256. -/
theorem readUnit_hexDigit {unit : Nat} (h : unit < 256) (rest : List Char) :
    readUnit ('0' :: '0' :: hexDigit (unit / 16) :: hexDigit (unit % 16) :: rest) = some (unit, rest) := by
  have hzero : hexValue '0' = some 0 := by decide
  have hhigh := hexValue_hexDigit (show unit / 16 < 16 by omega)
  have hlow := hexValue_hexDigit (show unit % 16 < 16 by omega)
  have hunit : unit / 16 * 16 + unit % 16 = unit := by omega
  simp [readUnit, hzero, hhigh, hlow, hunit, bind, Option.bind]

/-- The code unit of a character that is no surrogate stands for it alone. -/
theorem pairUnit_toNat {c : Char} (h : c.toNat < 0xD800) (rest : List Char) :
    pairUnit c.toNat rest = some (some c, rest) := by
  unfold pairUnit
  rw [if_neg (by omega), if_neg (by omega), Char.ofNat_toNat]

/-- A character that is not escaped stands for itself. -/
theorem readPiece_plain {c : Char} (hquote : c ≠ '"') (hslash : c ≠ '\\') (hcontrol : ¬c.toNat < 0x20) :
    readPiece (c :: rest) = some (.char c, rest) := by
  unfold readPiece
  split <;> simp_all

/-- The written form of a character is read as this character. -/
theorem readPiece_escape (c : Char) (rest : List Char) :
    readPiece (escape c ++ rest) = some (.char c, rest) := by
  unfold escape
  split_ifs with hquote hslash hbackspace htab hfeed hform hreturn hcontrol
  · rw [hquote]
    rfl
  · rw [hslash]
    rfl
  · rw [hbackspace]
    rfl
  · rw [htab]
    rfl
  · rw [hfeed]
    rfl
  · rw [hform]
    rfl
  · rw [hreturn]
    rfl
  · have hunit := readUnit_hexDigit (show c.toNat < 256 by omega) rest
    have hpair := pairUnit_toNat (show c.toNat < 0xD800 by omega) rest
    simp [readPiece, hunit, hpair, bind, Option.bind]
  · exact readPiece_plain hquote hslash hcontrol

/-- The characters of a text are read one by one, by induction on the text. -/
theorem readStringFrom_append (text : List Char) {fuel : Nat} (hfuel : text.length < fuel)
    (before rest : List Char) :
    readStringFrom fuel (some before) (text.flatMap escape ++ '"' :: rest) =
      some (some (before.reverse ++ text), rest) := by
  induction text generalizing fuel before with
  | nil =>
      cases fuel with
      | zero => exact absurd hfuel (Nat.not_lt_zero _)
      | succ fuel => simp [readStringFrom, readPiece, bind, Option.bind]
  | cons c text ih =>
      cases fuel with
      | zero => exact absurd hfuel (Nat.not_lt_zero _)
      | succ fuel =>
          have hpiece := readPiece_escape c (text.flatMap escape ++ '"' :: rest)
          have htail := ih (Nat.lt_of_succ_lt_succ hfuel) (c :: before)
          rw [List.flatMap_cons, List.append_assoc, readStringFrom]
          simp only [hpiece, bind, Option.bind, Option.map_some, htail]
          simp

/-- No character is written as nothing. -/
theorem length_le_flatMap_escape (text : List Char) : text.length ≤ (text.flatMap escape).length := by
  induction text with
  | nil => exact Nat.le_refl 0
  | cons c text ih =>
      have hpos : 1 ≤ (escape c).length := by
        unfold escape
        split_ifs <;> simp
      rw [List.flatMap_cons, List.length_append, List.length_cons]
      omega

/-- A text is read back from between its quotes. -/
theorem readString_append (text rest : List Char) :
    readString (text.flatMap escape ++ '"' :: rest) = some (some text, rest) := by
  have hlength := length_le_flatMap_escape text
  exact readStringFrom_append text (by rw [List.length_append]; omega) [] rest

end Json
end ExactSimplex
