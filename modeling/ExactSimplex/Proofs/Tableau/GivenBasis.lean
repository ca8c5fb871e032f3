import ExactSimplex.Tableau.Canonical
import Mathlib.Data.List.Basic

/-!
# Bases that are given

A given basis without a defect lists pairwise different variables, one for each constraint row, and it
passes the test for a canonical basis.

Main results:

- Theorem {lit}`Tableau.entryDefect_eq_none_iff`: entries without a defect are different variables.
- Theorem {lit}`Tableau.basisDefect_eq_none_iff`: when a given basis is accepted.
-/

namespace ExactSimplex
namespace Tableau

/-- Entries without a defect are variables that differ from each other and from the entries before. -/
theorem entryDefect_eq_none_iff {columns : ℕ} {before entries : List ℕ} :
    entryDefect columns before entries = none ↔
      (∀ c ∈ entries, (1 ≤ c ∧ c ≤ columns) ∧ c ∉ before) ∧ entries.Nodup := by
  induction entries generalizing before with
  | nil => simp [entryDefect]
  | cons c rest ih =>
      unfold entryDefect
      by_cases hrange : c = 0 ∨ columns < c
      · have hout : ¬(1 ≤ c ∧ c ≤ columns) := by omega
        simp [hrange, hout]
      · have hin : 1 ≤ c ∧ c ≤ columns := by omega
        by_cases hbefore : c ∈ before
        · simp [hrange, hbefore]
        · simp only [hrange, if_false, List.contains_eq_mem, hbefore, decide_false, Bool.false_eq_true,
            ih, List.forall_mem_cons, hin, List.nodup_cons, List.mem_append, List.mem_singleton, not_or]
          constructor
          · rintro ⟨hrest, hnodup⟩
            refine ⟨⟨⟨⟨trivial, trivial⟩, not_false⟩, fun d hd => ⟨(hrest d hd).1, (hrest d hd).2.1⟩⟩, ?_, hnodup⟩
            exact fun hc => (hrest c hc).2.2 rfl
          · rintro ⟨⟨-, hrest⟩, hc, hnodup⟩
            refine ⟨fun d hd => ⟨(hrest d hd).1, (hrest d hd).2, ?_⟩, hnodup⟩
            rintro rfl
            exact hc hd

/-- A given basis is accepted exactly if it has an entry for every row, the entries are pairwise
different variables, and it passes the test for a canonical basis. -/
theorem basisDefect_eq_none_iff {A : Arithmetic} {T : Tableau} {B : Basis} :
    T.basisDefect A B = .ok none ↔ B.size = T.constraints ∧
      (∀ c ∈ B.columns, 1 ≤ c ∧ c ≤ T.columns) ∧ B.columns.Nodup ∧
        T.isCanonical A B = .ok true := by
  unfold basisDefect
  by_cases hsize : B.size = T.constraints
  · rw [if_pos hsize]
    cases hdefect : entryDefect T.columns [] B.columns with
    | some defect =>
        -- A defect of the entries is reported before any number is looked at.
        have hentries : ¬((∀ c ∈ B.columns, 1 ≤ c ∧ c ≤ T.columns) ∧ B.columns.Nodup) := by
          intro h
          have hnone : entryDefect T.columns [] B.columns = none :=
            entryDefect_eq_none_iff.mpr ⟨fun c hc => ⟨h.1 c hc, List.not_mem_nil⟩, h.2⟩
          rw [hdefect] at hnone
          cases hnone
        constructor
        · intro h
          cases Calc.pure_eq_ok.mp h
        · rintro ⟨-, hrange, hnodup, -⟩
          exact absurd ⟨hrange, hnodup⟩ hentries
    | none =>
        rcases entryDefect_eq_none_iff.mp hdefect with ⟨hrange, hnodup⟩
        have hrange' : ∀ c ∈ B.columns, 1 ≤ c ∧ c ≤ T.columns := fun c hc => (hrange c hc).1
        simp only [Calc.bind_eq_ok, hsize, hnodup, true_and]
        constructor
        · rintro ⟨passed, hpassed, h⟩
          cases passed with
          | true => exact ⟨hrange', hpassed⟩
          | false => cases Calc.pure_eq_ok.mp h
        · rintro ⟨-, hpassed⟩
          exact ⟨true, hpassed, rfl⟩
  · rw [if_neg hsize]
    constructor
    · intro h
      cases Calc.pure_eq_ok.mp h
    · rintro ⟨h, -⟩
      exact absurd h hsize

end Tableau
end ExactSimplex
