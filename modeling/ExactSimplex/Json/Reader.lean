import ExactSimplex.Json.Value

/-!
# Reading JSON

The reader follows the grammar of JSON: no leading zeros, no trailing commas, no comments, no control
characters in strings, and nothing but white space after the document.  Each part of the reader returns
what it read together with the rest of the text.

Main results:

- Theorem {lit}`Json.skipSpace_append`: white space before a solid character is skipped.
- Theorem {lit}`Json.takeDigits_append`: a run of digits is read to its end.
-/

namespace ExactSimplex
namespace Json

/-- White space between the tokens. -/
def isSpace (c : Char) : Bool := c == ' ' || c == '\n' || c == '\t' || c == '\r'

/-- The text from its first token on. -/
def skipSpace (text : List Char) : List Char := text.dropWhile isSpace

/-! ## Numerals -/

/-- Splits off the leading digits. -/
def takeDigits (text : List Char) : List Char × List Char :=
  (text.takeWhile Char.isDigit, text.dropWhile Char.isDigit)

/-- At least one digit. -/
def readDigits (text : List Char) : Option (List Char × List Char) :=
  match takeDigits text with
  | ([], _) => none
  | (digits, rest) => some (digits, rest)

/-- The digits before the point: a zero alone, or digits that start with another one. -/
def readWhole (text : List Char) : Option (List Char × List Char) := do
  let (digits, rest) ← readDigits text
  if digits.head? = some '0' ∧ digits.length ≠ 1 then none else some (digits, rest)

/-- A point and the digits after it, if there is a point. -/
def readFraction : List Char → Option (Option (List Char) × List Char)
  | '.' :: rest => (readDigits rest).map fun read => (some read.1, read.2)
  | text => some (none, text)

/-- An exponent, if there is one. -/
def readExponent : List Char → Option (Option (Bool × List Char) × List Char)
  | c :: rest =>
      if c = 'e' ∨ c = 'E' then
        match rest with
        | '-' :: rest => (readDigits rest).map fun read => (some (true, read.1), read.2)
        | '+' :: rest => (readDigits rest).map fun read => (some (false, read.1), read.2)
        | rest => (readDigits rest).map fun read => (some (false, read.1), read.2)
      else some (none, c :: rest)
  | [] => some (none, [])

/-- The parts of a numeral after its sign. -/
def readMagnitude (negative : Bool) (text : List Char) : Option (Numeral × List Char) := do
  let (whole, text) ← readWhole text
  let (fraction, text) ← readFraction text
  let (exponent, text) ← readExponent text
  some (⟨negative, whole, fraction, exponent⟩, text)

/-- A numeral. -/
def readNumeral : List Char → Option (Numeral × List Char)
  | '-' :: rest => readMagnitude true rest
  | text => readMagnitude false text

/-! ## Strings -/

/-- The value of a hexadecimal digit. -/
def hexValue (c : Char) : Option Nat :=
  if c.isDigit then some (c.toNat - '0'.toNat)
  else if 'a' ≤ c ∧ c ≤ 'f' then some (c.toNat - 'a'.toNat + 10)
  else if 'A' ≤ c ∧ c ≤ 'F' then some (c.toNat - 'A'.toNat + 10)
  else none

/-- The code unit of four hexadecimal digits. -/
def readUnit : List Char → Option (Nat × List Char)
  | a :: b :: c :: d :: rest => do
      let a ← hexValue a
      let b ← hexValue b
      let c ← hexValue c
      let d ← hexValue d
      some (((a * 16 + b) * 16 + c) * 16 + d, rest)
  | _ => none

/-- The character that a backslash and a letter stand for. -/
def shortEscape : Char → Option Char
  | '"' => some '"'
  | '\\' => some '\\'
  | '/' => some '/'
  | 'b' => some '\x08'
  | 'f' => some '\x0c'
  | 'n' => some '\n'
  | 'r' => some '\r'
  | 't' => some '\t'
  | _ => none

/-- What an escape of a code unit stands for, given the text after it: a character, or nothing for an
unpaired surrogate.  A leading surrogate takes the trailing one of the escape that follows it. -/
def pairUnit (unit : Nat) (text : List Char) : Option (Option Char × List Char) :=
  if 0xD800 ≤ unit ∧ unit < 0xDC00 then
    match text with
    | '\\' :: 'u' :: rest =>
        match readUnit rest with
        | none => none
        | some (low, after) =>
            if 0xDC00 ≤ low ∧ low < 0xE000 then
              some (some (Char.ofNat (0x10000 + (unit - 0xD800) * 0x400 + (low - 0xDC00))), after)
            else some (none, text)
    | _ => some (none, text)
  else if 0xDC00 ≤ unit ∧ unit < 0xE000 then some (none, text)
  else some (some (Char.ofNat unit), text)

/-- One character of a string, up to the closing quote. -/
inductive Piece where
  | closing
  | char (c : Char)
  | unpaired

/-- The next piece of a string. -/
def readPiece : List Char → Option (Piece × List Char)
  | [] => none
  | '"' :: rest => some (.closing, rest)
  | '\\' :: 'u' :: rest => do
      let (unit, rest) ← readUnit rest
      match ← pairUnit unit rest with
      | (some c, rest) => some (.char c, rest)
      | (none, rest) => some (.unpaired, rest)
  | '\\' :: c :: rest => (shortEscape c).map fun char => (.char char, rest)
  | c :: rest => if c.toNat < 0x20 then none else some (.char c, rest)

/-- The rest of a string after its opening quote; `text` holds the characters so far in reverse, or
none after an unpaired surrogate. -/
def readStringFrom : (fuel : Nat) → (text : Option (List Char)) → List Char →
    Option (Option (List Char) × List Char)
  | 0, _, _ => none
  | fuel + 1, text, source => do
      match ← readPiece source with
      | (.closing, rest) => some (text.map List.reverse, rest)
      | (.char c, rest) => readStringFrom fuel (text.map (c :: ·)) rest
      | (.unpaired, rest) => readStringFrom fuel none rest

/-- The rest of a string after its opening quote. -/
def readString (source : List Char) : Option (Option (List Char) × List Char) :=
  readStringFrom (source.length + 1) (some []) source

/-! ## Documents -/

/-- The text after a given beginning. -/
def expect : List Char → List Char → Option (List Char)
  | [], text => some text
  | _ :: _, [] => none
  | e :: expected, c :: text => if e = c then expect expected text else none

mutual

/-- A value, from its first token on. -/
def readValue : (fuel : Nat) → List Char → Option (Json × List Char)
  | 0, _ => none
  | fuel + 1, text =>
      match text with
      | [] => none
      | 'n' :: rest => (expect "ull".toList rest).map fun rest => (.null, rest)
      | 't' :: rest => (expect "rue".toList rest).map fun rest => (.boolean true, rest)
      | 'f' :: rest => (expect "alse".toList rest).map fun rest => (.boolean false, rest)
      | '"' :: rest => (readString rest).map fun read => (.string read.1, read.2)
      | '[' :: rest =>
          match skipSpace rest with
          | ']' :: rest => some (.array [], rest)
          | rest => (readItems fuel rest).map fun read => (.array read.1, read.2)
      | '\x7b' :: rest =>
          match skipSpace rest with
          | '\x7d' :: rest => some (.object [], rest)
          | rest => (readMembers fuel rest).map fun read => (.object read.1, read.2)
      | text => (readNumeral text).map fun read => (.number read.1, read.2)

/-- One or more items of an array and the closing bracket. -/
def readItems : (fuel : Nat) → List Char → Option (List Json × List Char)
  | 0, _ => none
  | fuel + 1, text => do
      let (item, rest) ← readValue fuel text
      match skipSpace rest with
      | ']' :: rest => some ([item], rest)
      | ',' :: rest => do
          let (items, rest) ← readItems fuel (skipSpace rest)
          some (item :: items, rest)
      | _ => none

/-- One or more members of an object and the closing brace. -/
def readMembers : (fuel : Nat) → List Char →
    Option (List (Option (List Char) × Json) × List Char)
  | 0, _ => none
  | fuel + 1, text =>
      match text with
      | '"' :: rest => do
          let (key, rest) ← readString rest
          match skipSpace rest with
          | ':' :: rest => do
              let (value, rest) ← readValue fuel (skipSpace rest)
              match skipSpace rest with
              | '\x7d' :: rest => some ([(key, value)], rest)
              | ',' :: rest => do
                  let (members, rest) ← readMembers fuel (skipSpace rest)
                  some ((key, value) :: members, rest)
              | _ => none
          | _ => none
      | _ => none

end

/-- The document of a text; every level of nesting and every item takes a character of its own, so
twice the length is fuel enough. -/
def ofText (text : List Char) : Option Json := do
  let (value, rest) ← readValue (2 * text.length + 2) (skipSpace text)
  if (skipSpace rest).isEmpty then some value else none

/-! ## First facts -/

/-- Space before a text is skipped, and nothing of the text. -/
theorem skipSpace_append {space text : List Char} (hspace : ∀ c ∈ space, isSpace c = true)
    (htext : ∀ c, text.head? = some c → isSpace c = false) :
    skipSpace (space ++ text) = text := by
  unfold skipSpace
  rw [List.dropWhile_append_of_pos hspace]
  cases text with
  | nil => rfl
  | cons c rest => simp [htext c rfl]

/-- The digits before a text are taken, and nothing of the text. -/
theorem takeDigits_append {digits text : List Char} (hdigits : ∀ c ∈ digits, c.isDigit = true)
    (htext : ∀ c, text.head? = some c → c.isDigit = false) :
    takeDigits (digits ++ text) = (digits, text) := by
  unfold takeDigits
  rw [List.takeWhile_append_of_pos hdigits, List.dropWhile_append_of_pos hdigits]
  cases text with
  | nil => simp
  | cons c rest => simp [htext c rfl]

end Json
end ExactSimplex
