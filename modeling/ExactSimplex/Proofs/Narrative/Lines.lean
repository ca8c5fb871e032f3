import ExactSimplex.Proofs.Fraction.Written
import ExactSimplex.Proofs.Narrative.Drawing
import ExactSimplex.Proofs.Tableau.Cells

/-!
# The lines of a table

All cells of a column are filled up to the longest of its texts, and all rules are drawn for the same widths, so
the lines of a table are equally long.  No text in a cell holds a blank or a bar.  Hence a table falls apart into
its lines at the line feeds, a line into its cells at the bars, and a cell is trimmed to its text.  Fractions are
determined by their texts, so a table determines the tableau that it shows.

Main results:

- Theorem {lit}`Narrative.cellsOf_line`: the cells of a line are read back.
- Theorem {lit}`Narrative.length_of_mem_boxLines`: the lines of a box are equally long.
- Theorem {lit}`Narrative.draws_table`: the lines of a table.
- Theorem {lit}`Narrative.table_determines`: a well shaped tableau is drawn line by line, and no other tableau of
  its sizes is drawn in the same way.
-/

namespace ExactSimplex
namespace Narrative

open Calc

variable {T : Tableau} {basis : Option Basis} {widths : List ℕ} {row : List (List Char)}
  {rows : List (List (List Char))} {text : List Char}

/-! ## Texts in cells -/

/-- No character of the text is blank or a bar. -/
def Plain (text : List Char) : Prop := ∀ c ∈ text, Text.isBlank c = false ∧ c ≠ '│'

instance (text : List Char) : Decidable (Plain text) :=
  List.decidableBAll (fun c => Text.isBlank c = false ∧ c ≠ '│') text

/-- Two plain texts are plain together. -/
theorem plain_append {left right : List Char} (hleft : Plain left) (hright : Plain right) :
    Plain (left ++ right) := by
  intro c hc
  rcases List.mem_append.mp hc with hc | hc
  · exact hleft c hc
  · exact hright c hc

theorem plain_cons {c : Char} (hc : Text.isBlank c = false ∧ c ≠ '│') (h : Plain text) : Plain (c :: text) :=
  List.forall_mem_cons.mpr ⟨hc, h⟩

theorem plain_intText (n : ℤ) : Plain (Text.intText n) := by
  intro c hc
  constructor
  · exact Text.isBlank_of_mem_intText hc
  · rintro rfl
    exact Text.not_mem_intText n (by decide) (by decide) hc

theorem plain_fractionText (a : Fraction) : Plain a.text := by
  unfold Fraction.text
  split
  · exact plain_intText a.num
  · exact plain_append (plain_intText a.num) (plain_cons (by decide) (plain_intText a.den))

theorem plain_variableLabel (column : ℕ) : Plain (variableLabel column) := by
  apply plain_cons (by decide)
  apply plain_cons (by decide)
  exact plain_append (plain_intText column) (by decide)

theorem plain_rowLabel (basis : Option Basis) (i : ℕ) : Plain (rowLabel basis i) := by
  unfold rowLabel
  split
  · decide
  · split
    · exact plain_variableLabel _
    · exact plain_cons (by decide) (plain_intText i)

namespace Plain

/-- A plain text has solid ends. -/
theorem solidEnds (h : Plain text) : Text.SolidEnds text :=
  .of_forall fun c hc => (h c hc).1

/-- A plain text has no line feed. -/
theorem lineFeed_not_mem (h : Plain text) : '\n' ∉ text := by
  intro hc
  have hblank := (h '\n' hc).1
  contradiction

/-- A plain text has no bar. -/
theorem bar_not_mem (h : Plain text) : '│' ∉ text :=
  fun hc => (h '│' hc).2 rfl

end Plain

/-! ## Cells -/

/-- A cell is its text with blanks on both sides. -/
theorem cell_eq (width : ℕ) (text : List Char) :
    cell width text = (' ' :: List.replicate (width - text.length) ' ') ++ (text ++ [' ']) := by
  simp [cell, Text.fill]

/-- A cell adds spaces to its text and nothing else. -/
theorem mem_cell {width : ℕ} {c : Char} (h : c ∈ cell width text) : c = ' ' ∨ c ∈ text := by
  rw [cell_eq] at h
  simp only [List.mem_append, List.mem_cons, List.mem_replicate, List.not_mem_nil, or_false] at h
  tauto

/-- A cell is trimmed to its text. -/
theorem trim_cell (h : Plain text) (width : ℕ) : Text.trim (cell width text) = text := by
  rw [cell_eq]
  apply h.solidEnds.trim_between
  · intro c hc
    rcases List.mem_cons.mp hc with rfl | hc
    · decide
    · rw [List.eq_of_mem_replicate hc]
      decide
  · decide

/-! ## Lines and rules -/

/-- The row has a text for every width, and none is longer than its width. -/
def Fits (widths : List ℕ) (row : List (List Char)) : Prop :=
  List.Forall₂ (fun width text => text.length ≤ width) widths row

/-- The number of characters of a line: every cell has a space on both sides and a bar behind it, and one bar
stands in front. -/
def boxWidth (widths : List ℕ) : ℕ := (widths.map (· + 3)).sum + 1

/-- Texts and the characters between them, one fewer than texts. -/
theorem length_intercalate (c : Char) {ls : List (List Char)} (h : ls ≠ []) :
    (List.intercalate [c] ls).length + 1 = (ls.map fun l => l.length + 1).sum := by
  induction ls with
  | nil => contradiction
  | cons first rest ih =>
      cases rest with
      | nil => simp
      | cons second rest =>
          have hrest := ih (List.cons_ne_nil _ _)
          rw [List.intercalate_cons_cons, List.map_cons, List.sum_cons, ← hrest]
          simp only [List.length_append, List.length_singleton]
          omega

/-- A character of joined texts stands between them or in one of them. -/
theorem mem_intercalate {c d : Char} {ls : List (List Char)} (h : d ∈ List.intercalate [c] ls) :
    d = c ∨ ∃ l ∈ ls, d ∈ l := by
  induction ls with
  | nil => simp at h
  | cons first rest ih =>
      cases rest with
      | nil => exact Or.inr ⟨first, List.mem_cons_self, by simpa using h⟩
      | cons second rest =>
          rw [List.intercalate_cons_cons, List.mem_append, List.mem_append, List.mem_singleton] at h
          rcases h with (h | h) | h
          · exact Or.inr ⟨first, List.mem_cons_self, h⟩
          · exact Or.inl h
          · rcases ih h with h | ⟨l, hl, hd⟩
            · exact Or.inl h
            · exact Or.inr ⟨l, List.mem_cons_of_mem _ hl, hd⟩

/-- Segments that are two characters wider than the columns, with characters between them. -/
theorem length_segments (c : Char) {segments : List (List Char)}
    (h : segments.map List.length = widths.map (· + 2)) (hne : widths ≠ []) :
    (List.intercalate [c] segments).length + 2 = boxWidth widths := by
  have hsegments : segments ≠ [] := by
    rintro rfl
    exact hne (List.map_eq_nil_iff.mp h.symm)
  have hsum : segments.map (fun segment => segment.length + 1) = widths.map (· + 3) := by
    calc segments.map (fun segment => segment.length + 1)
        = (segments.map List.length).map (· + 1) := (List.map_map ..).symm
      _ = (widths.map (· + 2)).map (· + 1) := by rw [h]
      _ = widths.map (· + 3) := List.map_map ..
  rw [boxWidth, ← hsum, ← length_intercalate c hsegments]

/-- A rule is as long as a line. -/
theorem length_rule (left middle right : Char) (hne : widths ≠ []) :
    (rule left middle right widths).length = boxWidth widths := by
  have hsegments : (widths.map fun width => List.replicate (width + 2) '─').map List.length =
      widths.map (· + 2) := by
    simp [Function.comp_def]
  rw [← length_segments middle hsegments hne]
  simp [rule]

/-- A line of texts that fit is as long as its widths say. -/
theorem length_line (h : Fits widths row) (hne : widths ≠ []) : (line widths row).length = boxWidth widths := by
  have hsegments : (List.zipWith cell widths row).map List.length = widths.map (· + 2) := by
    clear hne
    induction h with
    | nil => rfl
    | cons hle _ ih => simp [cell_length hle, ih]
  rw [← length_segments '│' hsegments hne]
  simp [line]

/-- The filled texts of a row are its cells. -/
theorem exists_of_mem_cells {filled : List Char} (h : filled ∈ List.zipWith cell widths row) :
    ∃ width, ∃ text ∈ row, filled = cell width text := by
  rw [← List.map_uncurry_zip_eq_zipWith] at h
  rcases List.mem_map.mp h with ⟨⟨width, text⟩, hmem, rfl⟩
  exact ⟨width, text, (List.of_mem_zip hmem).2, rfl⟩

/-- The cells of a row hold no character but its own and spaces. -/
theorem not_mem_cells {c : Char} (hspace : c ≠ ' ') (hrow : ∀ text ∈ row, c ∉ text) :
    ∀ filled ∈ List.zipWith cell widths row, c ∉ filled := by
  intro filled hfilled hc
  rcases exists_of_mem_cells hfilled with ⟨width, text, htext, rfl⟩
  rcases mem_cell hc with hc | hc
  · exact hspace hc
  · exact hrow text htext hc

/-- The texts between the bars of a line, without the blanks around them. -/
def cellsOf (line : List Char) : List (List Char) :=
  (line.splitOn '│').tail.dropLast.map Text.trim

/-- A line is split at its bars; nothing stands before the first and behind the last one. -/
theorem splitOn_line (h : Fits widths row) (hne : widths ≠ []) (hplain : ∀ text ∈ row, Plain text) :
    (line widths row).splitOn '│' = [] :: (List.zipWith cell widths row ++ [[]]) := by
  have hsome : List.zipWith cell widths row ≠ [] := by
    cases h with
    | nil => contradiction
    | cons _ _ => simp
  have hbars : ∀ filled ∈ List.zipWith cell widths row, '│' ∉ filled :=
    not_mem_cells (by decide) fun text htext => (hplain text htext).bar_not_mem
  have hinside := List.splitOn_intercalate '│' hbars hsome
  have hbefore := List.splitOn_append_cons_self (a := '│') []
    (List.intercalate ['│'] (List.zipWith cell widths row) ++ ['│'])
  have hafter := List.splitOn_append_cons_self (a := '│')
    (List.intercalate ['│'] (List.zipWith cell widths row)) []
  rw [line, ← List.nil_append ('│' :: _), hbefore, hafter, hinside]
  simp

/-- The cells of a line are read back. -/
theorem cellsOf_line (h : Fits widths row) (hne : widths ≠ []) (hplain : ∀ text ∈ row, Plain text) :
    cellsOf (line widths row) = row := by
  have htrim : (List.zipWith cell widths row).map Text.trim = row := by
    clear hne
    induction h with
    | nil => rfl
    | cons _ _ ih =>
        rw [List.forall_mem_cons] at hplain
        simp [trim_cell hplain.1, ih hplain.2]
  rw [cellsOf, splitOn_line h hne hplain, List.tail_cons, List.dropLast_concat, htrim]

/-- A line holds no line feed. -/
theorem lineFeed_not_mem_line (hplain : ∀ text ∈ row, Plain text) : '\n' ∉ line widths row := by
  have hcells : ∀ filled ∈ List.zipWith cell widths row, '\n' ∉ filled :=
    not_mem_cells (by decide) fun text htext => (hplain text htext).lineFeed_not_mem
  intro h
  simp only [line, List.mem_cons, List.mem_append, List.not_mem_nil, or_false] at h
  rcases h with h | h | h
  · exact absurd h (by decide)
  · rcases mem_intercalate h with h | ⟨filled, hfilled, h⟩
    · exact absurd h (by decide)
    · exact hcells filled hfilled h
  · exact absurd h (by decide)

/-- A rule holds its ends, its crossings and dashes. -/
theorem lineFeed_not_mem_rule {left middle right : Char} (hends : '\n' ∉ [left, middle, right]) :
    '\n' ∉ rule left middle right widths := by
  intro h
  simp only [rule, List.mem_cons, List.mem_append, List.not_mem_nil, or_false] at h hends
  rcases h with h | h | h
  · exact hends (Or.inl h)
  · rcases mem_intercalate h with h | ⟨dashes, hdashes, h⟩
    · exact hends (Or.inr (Or.inl h))
    · rcases List.mem_map.mp hdashes with ⟨width, -, rfl⟩
      exact absurd (List.eq_of_mem_replicate h) (by decide)
  · exact hends (Or.inr (Or.inr h))

/-! ## Widths of columns -/

/-- A running maximum passes every value and where it started, by induction on the values. -/
theorem le_foldl_max {α : Type} (f : α → ℕ) (values : List α) (start : ℕ) :
    start ≤ values.foldl (fun width value => max width (f value)) start ∧
      ∀ value ∈ values, f value ≤ values.foldl (fun width value => max width (f value)) start := by
  induction values generalizing start with
  | nil => simp
  | cons first rest ih =>
      rcases ih (max start (f first)) with ⟨hstart, hrest⟩
      rw [List.foldl_cons, List.forall_mem_cons]
      exact ⟨(le_max_left ..).trans hstart, (le_max_right ..).trans hstart, hrest⟩

/-- The columns are wide enough for every row with as many texts. -/
theorem fits_columnWidths (hrow : row ∈ rows) :
    Fits ((List.range row.length).map (columnWidth rows)) row := by
  rw [Fits, List.forall₂_iff_get]
  refine ⟨by simp, fun i _ hi => ?_⟩
  have hmax := (le_foldl_max (fun row : List (List Char) => (row[i]?.map List.length).getD 0) rows 0).2 row hrow
  simpa [columnWidth, List.getElem?_eq_getElem hi] using hmax

/-! ## Boxes -/

/-- Below the second line no rule is drawn between the lines. -/
theorem lines_of_two_le {index : ℕ} (h : 2 ≤ index) : lines widths index rows = rows.map (line widths) := by
  induction rows generalizing index with
  | nil => rfl
  | cons row rest ih =>
      cases rest with
      | nil => rfl
      | cons next rest =>
          rw [lines, if_neg (Nat.not_lt.mpr h), ih (Nat.le_succ_of_le h)]
          rfl

/-- The lines below the objective row. -/
def linesBelow (widths : List ℕ) : List (List (List Char)) → List (List Char)
  | [] => []
  | row :: rest => rule '├' '┼' '┤' widths :: (row :: rest).map (line widths)

/-- A rule follows the heading, and one follows the objective row if there are constraint rows. -/
theorem lines_eq (first second : List (List Char)) (rest : List (List (List Char))) :
    lines widths 0 (first :: second :: rest) =
      line widths first :: rule '├' '┼' '┤' widths :: line widths second :: linesBelow widths rest := by
  cases rest with
  | nil => rfl
  | cons row rest =>
      rw [lines, if_pos (by decide), lines, if_pos (by decide), lines_of_two_le le_rfl]
      rfl

/-- The place of the line of a row: the upper edge, the heading and a rule stand above the objective row, and one
more rule above the constraint rows. -/
def lineOfRow (i : ℕ) : ℕ := if i = 0 then 3 else i + 4

section Boxes

variable {first second : List (List Char)} {rest : List (List (List Char))} {columns : ℕ}

/-- The widths of the columns of a box. -/
def boxWidths (rows : List (List (List Char))) (columns : ℕ) : List ℕ :=
  (List.range columns).map (columnWidth rows)

/-- The lines of a box: upper edge, heading, rule, objective row, and what is below. -/
theorem boxLines_eq (first second : List (List Char)) (rest : List (List (List Char))) (columns : ℕ) :
    boxLines (first :: second :: rest) columns =
      let widths := boxWidths (first :: second :: rest) columns
      rule '┌' '┬' '┐' widths :: line widths first :: rule '├' '┼' '┤' widths :: line widths second ::
        (linesBelow widths rest ++ [rule '└' '┴' '┘' widths]) := by
  rw [boxLines, lines_eq]
  rfl

/-- There is a line for each row, and five or six more. -/
theorem length_boxLines : (boxLines (first :: second :: rest) columns).length =
    rest.length + if rest.length = 0 then 5 else 6 := by
  rw [boxLines_eq]
  cases rest with
  | nil => rfl
  | cons row rest => simp [linesBelow]

/-- The rows below the heading are found at their lines. -/
theorem getElem?_boxLines {i : ℕ} (h : (second :: rest)[i]? = some row) :
    (boxLines (first :: second :: rest) columns)[lineOfRow i]? =
      some (line (boxWidths (first :: second :: rest) columns) row) := by
  rw [boxLines_eq]
  cases i with
  | zero =>
      cases h
      rfl
  | succ i =>
      cases rest with
      | nil => simp at h
      | cons third rest =>
          rw [List.getElem?_cons_succ] at h
          have hlt : i < (third :: rest).length := (List.getElem?_eq_some_iff.mp h).1
          have hplace : lineOfRow (i + 1) = i + 5 := rfl
          simp only [linesBelow, hplace, List.cons_append, List.getElem?_cons_succ]
          rw [List.getElem?_append_left (by simpa using hlt), List.getElem?_map, h]
          rfl

end Boxes

/-- A line of rows is the rule below one or the line of one. -/
theorem mem_lines {index : ℕ} {l : List Char} (h : l ∈ lines widths index rows) :
    l = rule '├' '┼' '┤' widths ∨ ∃ row ∈ rows, l = line widths row := by
  induction rows generalizing index with
  | nil => cases h
  | cons row rest ih =>
      cases rest with
      | nil => exact Or.inr ⟨row, List.mem_cons_self, List.mem_singleton.mp h⟩
      | cons next rest =>
          have hrest : l ∈ lines widths (index + 1) (next :: rest) →
              l = rule '├' '┼' '┤' widths ∨ ∃ row' ∈ row :: next :: rest, l = line widths row' := by
            intro hmem
            rcases ih hmem with hrule | ⟨row', hrow', hline⟩
            · exact Or.inl hrule
            · exact Or.inr ⟨row', List.mem_cons_of_mem _ hrow', hline⟩
          rw [lines] at h
          split at h
          · rcases List.mem_cons.mp h with hline | h
            · exact Or.inr ⟨row, List.mem_cons_self, hline⟩
            · rcases List.mem_cons.mp h with hrule | h
              · exact Or.inl hrule
              · exact hrest h
          · rcases List.mem_cons.mp h with hline | h
            · exact Or.inr ⟨row, List.mem_cons_self, hline⟩
            · exact hrest h

/-- A line of a box is a rule or the line of a row. -/
theorem mem_boxLines {columns : ℕ} {l : List Char} (h : l ∈ boxLines rows columns) :
    (∃ left middle right, '\n' ∉ [left, middle, right] ∧
        l = rule left middle right (boxWidths rows columns)) ∨
      ∃ row ∈ rows, l = line (boxWidths rows columns) row := by
  rcases List.mem_cons.mp h with hrule | h
  · exact Or.inl ⟨_, _, _, by decide, hrule⟩
  · rcases List.mem_append.mp h with h | h
    · rcases mem_lines h with hrule | hrow
      · exact Or.inl ⟨_, _, _, by decide, hrule⟩
      · exact Or.inr hrow
    · exact Or.inl ⟨_, _, _, by decide, List.mem_singleton.mp h⟩

section Rectangle

variable {columns : ℕ} (hlength : ∀ row ∈ rows, row.length = columns) (hpos : 0 < columns)

include hpos in
/-- A box has at least one column. -/
theorem boxWidths_ne_nil (rows : List (List (List Char))) : boxWidths rows columns ≠ [] := by
  simp [boxWidths, hpos.ne']

include hlength in
/-- Every row of a box fits into the widths of its columns. -/
theorem fits_boxWidths (hrow : row ∈ rows) : Fits (boxWidths rows columns) row := by
  have hfits := fits_columnWidths hrow
  rwa [hlength row hrow] at hfits

include hlength hpos in
/-- The lines of a box are equally long. -/
theorem length_of_mem_boxLines {l : List Char} (h : l ∈ boxLines rows columns) :
    l.length = boxWidth (boxWidths rows columns) := by
  have hne := boxWidths_ne_nil hpos rows
  rcases mem_boxLines h with ⟨left, middle, right, -, rfl⟩ | ⟨row, hrow, rfl⟩
  · exact length_rule left middle right hne
  · exact length_line (fits_boxWidths hlength hrow) hne

/-- A box is split into its lines at the line feeds. -/
theorem splitOn_box (hplain : ∀ row ∈ rows, ∀ text ∈ row, Plain text) :
    (List.intercalate ['\n'] (boxLines rows columns)).splitOn '\n' = boxLines rows columns := by
  apply List.splitOn_intercalate
  · intro l hl
    rcases mem_boxLines hl with ⟨left, middle, right, hends, rfl⟩ | ⟨row, hrow, rfl⟩
    · exact lineFeed_not_mem_rule hends
    · exact lineFeed_not_mem_line (hplain row hrow)
  · exact List.cons_ne_nil _ _

end Rectangle

/-! ## Tables -/

/-- The label of a row: a sign for the objective row, the basic variable of a constraint row that the basis covers,
and the number of one that it does not cover. -/
inductive Labels (basis : Option Basis) : ℕ → List Char → Prop
  | objective : Labels basis 0 "-z".toList
  | basic {B : Basis} {i column : ℕ} : basis = some B → B.inRow i = .ok column →
      Labels basis i ('x' :: '[' :: (Text.natText column ++ [']']))
  | bare {i : ℕ} : 0 < i → (∀ B, basis = some B → B.size < i) → Labels basis i ('r' :: Text.natText i)

/-- The label that is written is the label of the row. -/
theorem labels_rowLabel (basis : Option Basis) (i : ℕ) : Labels basis i (rowLabel basis i) := by
  unfold rowLabel
  cases i with
  | zero => exact .objective
  | succ i =>
      rw [if_neg (Nat.succ_ne_zero i), Nat.add_sub_cancel]
      cases hcolumn : basis.bind fun B => B.columns[i]? with
      | some column =>
          rcases Option.bind_eq_some_iff.mp hcolumn with ⟨B, hB, hentry⟩
          exact .basic hB (by rw [Basis.inRow_succ, Basis.entry_eq_ok_iff, hentry])
      | none =>
          refine .bare (Nat.succ_pos i) fun B hB => ?_
          rw [hB, Option.bind_some, List.getElem?_eq_none_iff] at hcolumn
          exact Nat.lt_succ_of_le hcolumn

/-- A labelled row is the label and the texts of the entries. -/
theorem getElem?_labelledRows (basis : Option Basis) (k : ℕ) (l : List (List Fraction)) (i : ℕ) :
    (labelledRows basis k l)[i]? =
      l[i]?.map fun entries => rowLabel basis (k + i) :: entries.map Fraction.text := by
  induction l generalizing k i with
  | nil => simp [labelledRows]
  | cons entries rest ih =>
      cases i with
      | zero => rfl
      | succ i =>
          rw [labelledRows, List.getElem?_cons_succ, List.getElem?_cons_succ, ih,
            show k + 1 + i = k + (i + 1) by omega]

/-- The rows into which a well shaped tableau is cut. -/
theorem getElem?_rows (hT : T.Shaped) {i : ℕ} (hi : i ≤ T.constraints) :
    ∃ entries, T.row i = .ok entries ∧ T.rows[i]? = some entries := by
  have hend : (i + 1) * T.width ≤ T.entries.size := by
    rw [hT]
    exact Nat.mul_le_mul_right _ (Nat.succ_le_succ hi)
  refine ⟨_, if_pos hend, ?_⟩
  rw [Tableau.rows, rowCount_of_shaped hT]
  simp [Nat.lt_succ_of_le hi]

/-- Every row of a well shaped tableau is labelled. -/
theorem length_labelledRows (hT : T.Shaped) (basis : Option Basis) :
    (labelledRows basis 0 T.rows).length = T.constraints + 1 := by
  have hlength : ∀ (k : ℕ) (l : List (List Fraction)), (labelledRows basis k l).length = l.length := by
    intro k l
    induction l generalizing k with
    | nil => rfl
    | cons entries rest ih => simp [labelledRows, ih]
  rw [hlength, Tableau.rows, rowCount_of_shaped hT]
  simp

/-- Every row of the table has a text for its label and for every entry, and the texts are plain. -/
theorem texts_of_mem_tableCells (hT : T.Shaped) (hrow : row ∈ tableCells T basis) :
    row.length = T.columns + 2 ∧ ∀ text ∈ row, Plain text := by
  rcases List.mem_cons.mp hrow with rfl | hrow
  · refine ⟨by simp [heading], ?_⟩
    intro text htext
    simp only [heading, List.mem_cons, List.mem_map] at htext
    rcases htext with rfl | rfl | ⟨k, -, rfl⟩
    · decide
    · decide
    · exact plain_variableLabel (k + 1)
  · rcases List.mem_iff_getElem?.mp hrow with ⟨i, hi⟩
    rw [getElem?_labelledRows] at hi
    rcases Option.map_eq_some_iff.mp hi with ⟨entries, hentries, rfl⟩
    have hwidth := length_of_mem_rows hT (List.mem_of_getElem? hentries)
    refine ⟨by simp [hwidth, Tableau.width], ?_⟩
    rw [List.forall_mem_cons, List.forall_mem_map]
    exact ⟨plain_rowLabel basis _, fun a _ => plain_fractionText a⟩

/-- A text draws a tableau under a basis: its lines are as many as the rows need and equally long, and the line of
every row holds the label and the entries of the row. -/
structure Draws (T : Tableau) (basis : Option Basis) (drawn : List Char) : Prop where
  lineCount : (drawn.splitOn '\n').length = T.constraints + if T.constraints = 0 then 5 else 6
  aligned : ∃ width, ∀ l ∈ drawn.splitOn '\n', l.length = width
  rows : ∀ i ≤ T.constraints, ∃ l label entries, (drawn.splitOn '\n')[lineOfRow i]? = some l ∧
    Labels basis i label ∧ T.row i = .ok entries ∧ cellsOf l = label :: entries.map Fraction.text

/-- The table of a well shaped tableau draws it. -/
theorem draws_table (hT : T.Shaped) (basis : Option Basis) :
    Draws T basis (List.intercalate ['\n'] (boxLines (tableCells T basis) (T.columns + 2))) := by
  have hlength : ∀ row ∈ tableCells T basis, row.length = T.columns + 2 := fun row hrow =>
    (texts_of_mem_tableCells hT hrow).1
  have hplain : ∀ row ∈ tableCells T basis, ∀ text ∈ row, Plain text := fun row hrow =>
    (texts_of_mem_tableCells hT hrow).2
  have hpos : 0 < T.columns + 2 := Nat.succ_pos _
  have hlines : (List.intercalate ['\n'] (boxLines (tableCells T basis) (T.columns + 2))).splitOn '\n' =
      boxLines (tableCells T basis) (T.columns + 2) := splitOn_box hplain
  have hcount := length_labelledRows hT basis
  have hsecond : 0 < (labelledRows basis 0 T.rows).length := by omega
  -- There is an objective row, so the table has a heading and one more row.
  obtain ⟨second, rest, hcells⟩ := List.exists_cons_of_length_pos hsecond
  have hrest : rest.length = T.constraints := by
    rw [hcells, List.length_cons] at hcount
    omega
  have htable : tableCells T basis = heading T.columns :: second :: rest := by rw [tableCells, hcells]
  refine ⟨?_, ⟨_, fun l hl => length_of_mem_boxLines hlength hpos (hlines ▸ hl)⟩, fun i hi => ?_⟩
  · rw [hlines, htable, length_boxLines, hrest]
  · rcases getElem?_rows hT hi with ⟨entries, hentries, hrow⟩
    have hsome : (second :: rest)[i]? = some (rowLabel basis i :: entries.map Fraction.text) := by
      rw [← hcells, getElem?_labelledRows, hrow, Nat.zero_add]
      rfl
    have hmem : rowLabel basis i :: entries.map Fraction.text ∈ tableCells T basis := by
      rw [htable]
      exact List.mem_cons_of_mem _ (List.mem_of_getElem? hsome)
    have hline : (boxLines (tableCells T basis) (T.columns + 2))[lineOfRow i]? =
        some (line (boxWidths (tableCells T basis) (T.columns + 2))
          (rowLabel basis i :: entries.map Fraction.text)) := by
      rw [htable]
      exact getElem?_boxLines hsome
    have hread := cellsOf_line (fits_boxWidths hlength hmem) (boxWidths_ne_nil hpos _) (hplain _ hmem)
    rw [← hlines] at hline
    exact ⟨_, _, entries, hline, labels_rowLabel basis i, hentries, hread⟩

/-- Two well shaped tableaux of the same sizes with the same drawing are the same, whatever bases label them. -/
theorem Draws.eq {U : Tableau} {basis' : Option Basis} {drawn : List Char} (hT : T.Shaped) (hU : U.Shaped)
    (hconstraints : U.constraints = T.constraints) (hcolumns : U.columns = T.columns)
    (h : Draws T basis drawn) (h' : Draws U basis' drawn) : T = U := by
  apply hT.eq_of_get hU hconstraints hcolumns
  intro i hi j hj
  rcases h.rows i hi with ⟨l, label, entries, hl, -, hentries, hcells⟩
  rcases h'.rows i (hconstraints ▸ hi) with ⟨l', label', entries', hl', -, hentries', hcells'⟩
  obtain rfl : l = l' := Option.some.inj (hl.symm.trans hl')
  have htexts : entries.map Fraction.text = entries'.map Fraction.text := by
    rw [hcells, List.cons.injEq] at hcells'
    exact hcells'.2
  have hsame : entries = entries' :=
    List.map_injective_iff.mpr (fun _ _ => Fraction.text_injective) htexts
  have hrow := Tableau.row_eq_cellRow hT hi fun j hj => hT.get_cells hi hj
  have hrow' := Tableau.row_eq_cellRow hU (hconstraints ▸ hi) fun j hj => hU.get_cells (hconstraints ▸ hi) hj
  rw [hentries, Except.ok.injEq] at hrow
  rw [hentries', Except.ok.injEq, hcolumns, ← hsame, hrow] at hrow'
  have hcell := congrArg (·[j]?) hrow'
  simp only [Tableau.getElem?_cellRow _ hj, Option.some.injEq] at hcell
  rw [hT.get_cells hi hj, hU.get_cells (hconstraints ▸ hi) (hcolumns ▸ hj), hcell]

/-- A well shaped tableau has a drawing: as many lines as its rows need, all equally long, with the label of every
row and the texts of its entries between the bars of its line.  No other well shaped tableau of its sizes has the
same drawing, under whatever basis. -/
theorem table_determines (hT : T.Shaped) (basis : Option Basis) :
    ∃ drawn, table T basis = .ok drawn ∧ Draws T basis drawn ∧
      ∀ (U : Tableau) (basis' : Option Basis), U.Shaped → U.constraints = T.constraints →
        U.columns = T.columns → table U basis' = .ok drawn → U = T := by
  refine ⟨_, table_of_shaped hT basis, draws_table hT basis, ?_⟩
  intro U basis' hU hconstraints hcolumns hdrawn
  rw [table_of_shaped hU, Except.ok.injEq] at hdrawn
  have hdraws := draws_table hU basis'
  rw [hdrawn] at hdraws
  exact (Draws.eq hT hU hconstraints hcolumns (draws_table hT basis) hdraws).symm

/-- A tableau with a constraint row more than the basis that it is drawn with. -/
def halfCovered : Tableau where
  columns := 1
  constraints := 2
  entries := #[⟨0, 1⟩, ⟨-1, 2⟩, ⟨10, 1⟩, ⟨1, 1⟩, ⟨-3, 4⟩, ⟨0, 1⟩]

/-- The row that is not covered is labelled with its number. -/
theorem table_determines_halfCovered :
    halfCovered.Shaped ∧ ∃ drawn, table halfCovered (some ⟨[1]⟩) = .ok drawn ∧
      drawn.splitOn '\n' =
        ["┌──────┬──────┬──────┐",
         "│      │    b │ x[1] │",
         "├──────┼──────┼──────┤",
         "│   -z │    0 │ -1/2 │",
         "├──────┼──────┼──────┤",
         "│ x[1] │   10 │    1 │",
         "│   r2 │ -3/4 │    0 │",
         "└──────┴──────┴──────┘"].map String.toList ∧
      Draws halfCovered (some ⟨[1]⟩) drawn ∧
      ∀ (U : Tableau) (basis : Option Basis), U.Shaped → U.constraints = 2 → U.columns = 1 →
        table U basis = .ok drawn → U = halfCovered := by
  have hT : halfCovered.Shaped := by decide
  rcases table_determines hT (some ⟨[1]⟩) with ⟨drawn, hdrawn, hdraws, hunique⟩
  refine ⟨hT, drawn, hdrawn, ?_, hdraws, hunique⟩
  rw [table_of_shaped hT, Except.ok.injEq] at hdrawn
  rw [← hdrawn]
  decide +kernel

end Narrative
end ExactSimplex
