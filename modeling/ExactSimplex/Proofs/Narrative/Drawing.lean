import ExactSimplex.Narrative.Printer
import ExactSimplex.Proofs.Solver.Iterations

/-!
# Every solve can be told

A table is drawn from full rows, which every well shaped tableau has.  The states that a solve reports are
states at the heads of its loops, and these are well shaped whatever wraps, so the narrative of a solve is
never broken off.

Main results:

- Theorem {lit}`Narrative.table_of_shaped`: a well shaped tableau can be drawn.
- Theorem {lit}`Narrative.narrative_of_shaped`: events with well shaped states can be told.
- Theorem {lit}`Solver.exists_narrative`: the events of a solve can be told.
-/

namespace ExactSimplex

open Calc

namespace Narrative

variable {T : Tableau}

/-- A well shaped tableau is cut into its rows. -/
theorem rowCount_of_shaped (hT : T.Shaped) :
    (T.entries.size + T.columns) / T.width = T.constraints + 1 := by
  have hpos : 0 < T.width := Nat.succ_pos _
  have hlast : T.columns / T.width = 0 := Nat.div_eq_of_lt (Nat.lt_succ_self T.columns)
  rw [hT, Nat.add_div_of_dvd_right (Nat.dvd_mul_left _ _), Nat.mul_div_cancel _ hpos, hlast]

/-- The rows of a well shaped tableau are full. -/
theorem length_of_mem_rows (hT : T.Shaped) {row : List Fraction} (hrow : row ∈ T.rows) :
    row.length = T.width := by
  unfold Tableau.rows at hrow
  rw [rowCount_of_shaped hT] at hrow
  rcases List.mem_map.mp hrow with ⟨i, hi, rfl⟩
  have hend : (i + 1) * T.width ≤ T.entries.size := by
    rw [hT]
    exact Nat.mul_le_mul_right _ (List.mem_range.mp hi)
  rw [Array.length_toList, Array.size_extract, Nat.min_eq_left hend, Nat.succ_mul]
  omega

/-- The cells of a table, the heading first. -/
def tableCells (T : Tableau) (basis : Option Basis) : List (List (List Char)) :=
  heading T.columns :: labelledRows basis 0 T.rows

/-- A well shaped tableau can be drawn. -/
theorem table_of_shaped (hT : T.Shaped) (basis : Option Basis) :
    table T basis = .ok (List.intercalate ['\n'] (boxLines (tableCells T basis) (T.columns + 2))) := by
  have hall : (T.rows.all fun row => T.width ≤ row.length) = true := by
    rw [List.all_eq_true]
    intro row hrow
    exact decide_eq_true (length_of_mem_rows hT hrow).ge
  unfold table
  rw [if_pos hall]
  rfl

/-- A sequence of pieces has its texts if every piece has one. -/
theorem exists_texts {pieces : List Piece} (h : ∀ piece ∈ pieces, ∃ text, piece.text = .ok text) :
    ∃ all, texts pieces = .ok all := by
  induction pieces with
  | nil => exact ⟨[], rfl⟩
  | cons piece rest ih =>
      rw [List.forall_mem_cons] at h
      rcases h.1 with ⟨text, htext⟩
      rcases ih h.2 with ⟨others, hothers⟩
      exact ⟨text :: others, by rw [texts, htext, hothers]; rfl⟩

/-- The words of a piece are at hand. -/
theorem exists_text_words (words : List String) :
    ∀ piece ∈ words.map Piece.words, ∃ text, piece.text = .ok text := by
  intro piece hpiece
  rcases List.mem_map.mp hpiece with ⟨text, -, rfl⟩
  exact ⟨text, rfl⟩

/-- An event can be told if its state, where it has one, is well shaped. -/
theorem exists_text_pieces {event : Event} (h : ∀ s ∈ snapshots [event], s.1.Shaped) :
    ∀ piece ∈ pieces event, ∃ text, piece.text = .ok text := by
  cases event with
  | iteration stage index T B =>
      have hT := h (T, B) List.mem_cons_self
      have hdrawn := table_of_shaped hT (some B)
      intro piece hpiece
      rcases List.mem_append.mp hpiece with hpiece | hpiece
      · exact exists_text_words _ piece hpiece
      · simp only [List.mem_cons, List.not_mem_nil, or_false] at hpiece
        rcases hpiece with rfl | rfl
        · exact ⟨_, by rw [Piece.text, hdrawn]; rfl⟩
        · exact ⟨_, rfl⟩
  | started stage => exact exists_text_words _
  | pivot stage entering leaving element => exact exists_text_words _
  | degeneracy row artificial entering => exact exists_text_words _
  | cut round sourceRow => exact exists_text_words _
  | finished stage outcome objective => exact exists_text_words _

/-- Events with well shaped states can be told. -/
theorem narrative_of_shaped {events : List Event} (h : ∀ s ∈ snapshots events, s.1.Shaped) :
    ∃ told, narrative events = .ok told := by
  have hpieces : ∀ piece ∈ events.flatMap pieces, ∃ text, piece.text = .ok text := by
    intro piece hpiece
    rcases List.mem_flatMap.mp hpiece with ⟨event, hevent, htold⟩
    rcases List.append_of_mem hevent with ⟨before, after, rfl⟩
    refine exists_text_pieces (fun s hs => h s ?_) piece htold
    rw [← List.singleton_append, snapshots_append, snapshots_append]
    exact List.mem_append_right _ (List.mem_append_left _ hs)
  rcases exists_texts hpieces with ⟨all, hall⟩
  exact ⟨String.join all, by rw [narrative, hall]; rfl⟩

end Narrative

namespace Solver

variable {A : Arithmetic} {S : Solver} {T : Tableau} {budget : ℕ}

/-- The events of a solve can be told. -/
theorem exists_narrative (hA : A.holds 1 = true) (hT : T.Shaped)
    (hentries : ∀ a ∈ T.entries, Fraction.Built A a) {solved : Solved}
    (h : S.solve A budget T = .ok solved) : ∃ told, Narrative.narrative solved.events = .ok told := by
  have hstores := T.stores_cells hT fun a ha => (hentries a ha).proper hA
  refine Narrative.narrative_of_shaped fun s hs => ?_
  rcases visits_of_mem_snapshots h s hs with ⟨loop, hvisit⟩
  rcases hvisit.soundState hA hstores with ⟨m, n, hsound, -⟩
  exact hsound.stores.shaped

end Solver
end ExactSimplex
