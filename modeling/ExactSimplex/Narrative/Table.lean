import ExactSimplex.Fraction.Text
import ExactSimplex.Tableau.Basic
import ExactSimplex.Text.Padding

/-!
# Tableaux as boxed tables

Column 0 is headed {lit}`b` and the others {lit}`x[1]`, {lit}`x[2]` and so on.  Row 0 is labelled
{lit}`-z`; a constraint row carries the name of its basic variable where a basis covers it, and its
number otherwise.  All cells of a column are as wide as its longest, texts stand at the right, and a
rule follows the heading and the objective row.

Main results:

- Theorem {lit}`Narrative.cell_length`: a cell is two characters wider than its column.
-/

namespace ExactSimplex
namespace Narrative

/-- The name of a variable. -/
def variableLabel (column : Nat) : List Char := 'x' :: '[' :: (Text.natText column ++ [']'])

/-- The heading of a tableau with a number of columns. -/
def heading (columns : Nat) : List (List Char) :=
  [] :: ['b'] :: (List.range columns).map fun k => variableLabel (k + 1)

/-- The label of a row. -/
def rowLabel (basis : Option Basis) (row : Nat) : List Char :=
  if row = 0 then ['-', 'z']
  else match basis.bind fun B => B.columns[row - 1]? with
    | some column => variableLabel column
    | none => 'r' :: Text.natText row

/-- The cells of the rows numbered from `row` on, each after its label. -/
def labelledRows (basis : Option Basis) : (row : Nat) → List (List Fraction) → List (List (List Char))
  | _, [] => []
  | row, entries :: rest =>
      (rowLabel basis row :: entries.map Fraction.text) :: labelledRows basis (row + 1) rest

/-- The greatest length of a cell at a position. -/
def columnWidth (rows : List (List (List Char))) (position : Nat) : Nat :=
  rows.foldl (fun width row => max width ((row[position]?.map List.length).getD 0)) 0

/-- A cell: its text at the right, a space at each side. -/
def cell (width : Nat) (text : List Char) : List Char :=
  ' ' :: (Text.fill .right width ' ' text ++ [' '])

/-- A horizontal rule with its left end, its crossings and its right end. -/
def rule (left middle right : Char) (widths : List Nat) : List Char :=
  left :: (List.intercalate [middle] (widths.map fun width => List.replicate (width + 2) '─') ++
    [right])

/-- The line of a row. -/
def line (widths : List Nat) (row : List (List Char)) : List Char :=
  '│' :: (List.intercalate ['│'] (List.zipWith cell widths row) ++ ['│'])

/-- The lines of the rows numbered from `index` on, the heading being row 0; a rule follows rows 0 and
1 unless they are the last. -/
def lines (widths : List Nat) : (index : Nat) → List (List (List Char)) → List (List Char)
  | _, [] => []
  | _, [row] => [line widths row]
  | index, row :: next :: rest =>
      if index < 2 then
        line widths row :: rule '├' '┼' '┤' widths :: lines widths (index + 1) (next :: rest)
      else line widths row :: lines widths (index + 1) (next :: rest)

/-- The lines of the boxed table of a heading and rows. -/
def boxLines (rows : List (List (List Char))) (columns : Nat) : List (List Char) :=
  let widths := (List.range columns).map (columnWidth rows)
  rule '┌' '┬' '┐' widths :: (lines widths 0 rows ++ [rule '└' '┴' '┘' widths])

/-- The boxed table of a tableau.  Unchecked data may end in a row that is too short for it. -/
def table (T : Tableau) (basis : Option Basis) : Calc (List Char) :=
  let rows := T.rows
  if rows.all fun row => T.width ≤ row.length then
    .ok (List.intercalate ['\n']
      (boxLines (heading T.columns :: labelledRows basis 0 rows) (T.columns + 2)))
  else .error .outOfRange

/-- A cell is as wide as its column and the blanks around it. -/
theorem cell_length {width : Nat} {text : List Char} (h : text.length ≤ width) :
    (cell width text).length = width + 2 := by
  simp only [cell, List.length_cons, List.length_append, Text.fill_length, List.length_nil]
  omega

end Narrative
end ExactSimplex
