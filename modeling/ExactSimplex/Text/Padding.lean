/-!
# Padding

A text is first cut to a number of characters, then filled up to a width.

Main results:

- Theorem {lit}`fill_length`: a filled text reaches the width and is never shortened by it.
-/

namespace ExactSimplex
namespace Text

/-- On which side of the filling a text stands. -/
inductive Alignment where
  | left
  | right
  /-- In the middle; an odd filling character goes to the right. -/
  | center
  deriving Repr, DecidableEq

/-- How a text is cut and filled. -/
structure Padding where
  alignment : Alignment := .left
  width : Nat := 0
  filling : Char := ' '
  /-- The greatest number of characters kept. -/
  limit : Option Nat := none
  deriving Repr, DecidableEq

/-- Fills a text up to a width. -/
def fill (alignment : Alignment) (width : Nat) (filling : Char) (text : List Char) : List Char :=
  let missing := width - text.length
  let before := match alignment with
    | .left => 0
    | .right => missing
    | .center => missing / 2
  List.replicate before filling ++ text ++ List.replicate (missing - before) filling

/-- Cuts a text to the limit, then fills it up to the width. -/
def Padding.apply (p : Padding) (text : List Char) : List Char :=
  fill p.alignment p.width p.filling
    (match p.limit with
      | none => text
      | some limit => text.take limit)

/-- A filled text has the width, or its own length if it is longer. -/
theorem fill_length (alignment : Alignment) (width : Nat) (filling : Char) (text : List Char) :
    (fill alignment width filling text).length = max width text.length := by
  cases alignment <;> simp [fill] <;> omega

end Text
end ExactSimplex
