import ExactSimplex.Json.Value

/-!
# Writing JSON

A document is written compactly on one line, or spread over lines with two spaces per level of nesting.
Strings escape quotes, backslashes and control characters; all other characters stand for themselves.

Main definitions:

- {lit}`Json.toText`: the document on one line.
- {lit}`Json.toPrettyText`: the document over several lines.
-/

namespace ExactSimplex
namespace Json

/-- The lower-case hexadecimal digit of a value below sixteen. -/
def hexDigit (value : Nat) : Char := Nat.digitChar value

/-- The written form of a character of a string. -/
def escape (c : Char) : List Char :=
  if c = '"' then ['\\', '"']
  else if c = '\\' then ['\\', '\\']
  else if c = '\x08' then ['\\', 'b']
  else if c = '\t' then ['\\', 't']
  else if c = '\n' then ['\\', 'n']
  else if c = '\x0c' then ['\\', 'f']
  else if c = '\r' then ['\\', 'r']
  else if c.toNat < 0x20 then
    ['\\', 'u', '0', '0', hexDigit (c.toNat / 16), hexDigit (c.toNat % 16)]
  else [c]

/-- A string between its quotes; a replacement character stands for what is no text. -/
def writeString (text : Option (List Char)) : List Char :=
  '"' :: ((text.getD ['\ufffd']).flatMap escape ++ ['"'])

/-- The spelling of a numeral. -/
def writeNumeral (n : Numeral) : List Char :=
  let sign := if n.negative then ['-'] else []
  let fraction := match n.fraction with
    | none => []
    | some digits => '.' :: digits
  let exponent := match n.exponent with
    | none => []
    | some (down, digits) => 'e' :: (if down then '-' :: digits else digits)
  sign ++ n.whole ++ fraction ++ exponent

/-! ## On one line -/

mutual

/-- The compact form of a document. -/
def write : Json → List Char
  | .null => "null".toList
  | .boolean true => "true".toList
  | .boolean false => "false".toList
  | .number n => writeNumeral n
  | .string text => writeString text
  | .array [] => ['[', ']']
  | .array (item :: rest) => '[' :: (write item ++ writeItems rest)
  | .object [] => ['\x7b', '\x7d']
  | .object ((key, value) :: rest) =>
      '\x7b' :: (writeString key ++ ':' :: (write value ++ writeMembers rest))

/-- The items after the first, and the closing bracket. -/
def writeItems : List Json → List Char
  | [] => [']']
  | item :: rest => ',' :: (write item ++ writeItems rest)

/-- The members after the first, and the closing brace. -/
def writeMembers : List (Option (List Char) × Json) → List Char
  | [] => ['\x7d']
  | (key, value) :: rest => ',' :: (writeString key ++ ':' :: (write value ++ writeMembers rest))

end

/-! ## Over several lines -/

/-- A line break and the indentation of a level. -/
def newLine (level : Nat) : List Char := '\n' :: List.replicate (2 * level) ' '

mutual

/-- The form over several lines of a document that starts at a level of nesting. -/
def writePretty (level : Nat) : Json → List Char
  | .null => "null".toList
  | .boolean true => "true".toList
  | .boolean false => "false".toList
  | .number n => writeNumeral n
  | .string text => writeString text
  | .array [] => ['[', ']']
  | .array (item :: rest) =>
      '[' :: (newLine (level + 1) ++ writePretty (level + 1) item ++ writePrettyItems level rest)
  | .object [] => ['\x7b', '\x7d']
  | .object ((key, value) :: rest) =>
      '\x7b' :: (newLine (level + 1) ++ writeString key ++ ':' :: ' ' ::
        (writePretty (level + 1) value ++ writePrettyMembers level rest))

/-- The items after the first, and the closing bracket. -/
def writePrettyItems (level : Nat) : List Json → List Char
  | [] => newLine level ++ [']']
  | item :: rest =>
      ',' :: (newLine (level + 1) ++ writePretty (level + 1) item ++ writePrettyItems level rest)

/-- The members after the first, and the closing brace. -/
def writePrettyMembers (level : Nat) : List (Option (List Char) × Json) → List Char
  | [] => newLine level ++ ['\x7d']
  | (key, value) :: rest =>
      ',' :: (newLine (level + 1) ++ writeString key ++ ':' :: ' ' ::
        (writePretty (level + 1) value ++ writePrettyMembers level rest))

end

/-- The compact form as a string. -/
def toText (document : Json) : String := String.ofList document.write

/-- The form over several lines as a string. -/
def toPrettyText (document : Json) : String := String.ofList (document.writePretty 0)

end Json
end ExactSimplex
