import ExactSimplex.Proofs.Simplex.Dual
import ExactSimplex.Proofs.Simplex.Primal
import ExactSimplex.Proofs.Tableau.RowOrder

/-!
# Runs on constraints in another order

Both scans over the rows keep the best row so far in the order of the rows.  What they find is the one row of
least rank, because different rows have different basic variables.  So the rules ask for the same pivot in
whatever order the rows are listed, and a run on the constraints in another order is the same run, with every
state in the other order.

Main results:

- Theorem {lit}`Least.perm_eq`: a scan for a least rank finds the same index in every order.
- Theorems {lit}`orderFree_primalRule` and {lit}`orderFree_dualRule`: the rules do not depend on the order.
- Theorem {lit}`CanonicalState.takePivot_reorder`: a pivot commutes with the reordering.
- Theorem {lit}`OrderFree.runStage_reorder`: so does a whole run.
-/

namespace ExactSimplex

open Fraction

variable {m n : ℕ} {M : Values} {s : State} (ρ : RowOrder m)

/-! ## Scans -/

namespace Least

variable {κ : Type} [LinearOrder κ] {p : ℕ → Prop} {key : ℕ → κ} {best best' : Option ℕ}

/-- There is only one first index of least key. -/
theorem unique {stop : ℕ} (h : Least p key stop best) (h' : Least p key stop best') : best = best' := by
  cases best with
  | none =>
      cases best' with
      | none => rfl
      | some t' => exact absurd h'.2.2.1 (h t' h'.1 h'.2.1)
  | some t =>
      rcases h with ⟨ht, htstop, hpt, hleast⟩
      cases best' with
      | none => exact absurd hpt (h' t ht htstop)
      | some t' =>
          rcases h' with ⟨ht', htstop', hpt', hleast'⟩
          have hforth := hleast t' ht' htstop' hpt'
          have hback := hleast' t ht htstop hpt
          rcases lt_trichotomy t t' with hlt | rfl | hgt
          · exact absurd (hback.2 hlt) (not_lt.mpr hforth.1)
          · rfl
          · exact absurd (hforth.2 hgt) (not_lt.mpr hback.1)

/-- Where different indices have different keys, a scan in another order finds the same index. -/
theorem perm_eq (hinjective : ∀ i k, 1 ≤ i → i ≤ m → 1 ≤ k → k ≤ m → key i = key k → i = k)
    (h : Least p key (m + 1) best)
    (h' : Least (fun i => p (ρ.perm i)) (fun i => key (ρ.perm i)) (m + 1) best') :
    best = best'.map ρ.perm := by
  cases best with
  | none =>
      cases best' with
      | none => rfl
      | some t' =>
          rcases h' with ⟨ht', htm', hpt', -⟩
          rcases ρ.perm_mem ht' (Nat.le_of_lt_succ htm') with ⟨hpos, hle⟩
          exact absurd hpt' (h _ hpos (by omega))
  | some t =>
      rcases h with ⟨ht, htm, hpt, hleast⟩
      rcases ρ.symm.perm_mem ht (Nat.le_of_lt_succ htm) with ⟨hpos, hle⟩
      have hpback : p (ρ.perm (ρ.symm.perm t)) := by rwa [ρ.perm_perm_symm]
      cases best' with
      | none => exact absurd hpback (h' _ hpos (by omega))
      | some t' =>
          rcases h' with ⟨ht', htm', hpt', hleast'⟩
          rcases ρ.perm_mem ht' (Nat.le_of_lt_succ htm') with ⟨hpos', hle'⟩
          have hforth : key t ≤ key (ρ.perm t') := (hleast _ hpos' (by omega) hpt').1
          have hback : key (ρ.perm t') ≤ key (ρ.perm (ρ.symm.perm t)) :=
            (hleast' _ hpos (by omega) hpback).1
          rw [ρ.perm_perm_symm] at hback
          rw [Option.map_some, hinjective t _ ht (by omega) hpos' hle' (le_antisymm hforth hback)]

end Least

/-! ## States and events -/

/-- A state in another order of the rows. -/
def State.reorder (s : State) : State :=
  (s.1.reorder ρ, s.2.reorder ρ)

/-- An event in another order of the rows: only the snapshots of states change. -/
def Event.reorder : Event → Event
  | .iteration stage index T B => .iteration stage index (T.reorder ρ) (B.reorder ρ)
  | event => event

/-- A run in another order of the rows: the answer stays, the states are reordered. -/
def Run.reorder {α : Type} (run : Run α) : Run α where
  result := run.result
  tableau := run.tableau.reorder ρ
  basis := run.basis.reorder ρ
  events := run.events.map (Event.reorder ρ)

/-- The records of a run do not depend on the order of the rows. -/
theorem Run.records_reorder {α : Type} (run : Run α) :
    (run.reorder ρ).events.map Event.record = run.events.map Event.record := by
  rw [Run.reorder, List.map_map]
  apply List.map_congr_left
  intro event _
  cases event <;> rfl

/-- The numbers of a tableau in another order. -/
theorem Tableau.Represents.values_reorder {T : Tableau} (hT : T.Represents m n M) :
    (T.reorder ρ).values = M.reorder ρ :=
  (hT.reorder ρ).values

namespace CanonicalState

/-- A canonical state in another order is canonical. -/
theorem reorder (hs : CanonicalState m n M s) :
    CanonicalState m n (s.1.values.reorder ρ) (s.reorder ρ) := by
  have hvalues : (s.1.reorder ρ).values = s.1.values.reorder ρ := hs.tableau.values_reorder ρ
  have hbasic : (s.2.reorder ρ).basic = s.2.basic ∘ ρ.perm := Basis.basic_reorder ρ hs.basis.size
  refine ⟨?_, ?_, ?_, ?_⟩
  · show (s.1.reorder ρ).Represents m n (s.1.reorder ρ).values
    rw [hvalues]
    exact hs.tableau.reorder ρ
  · show (s.2.reorder ρ).Represents m (s.2.reorder ρ).basic
    rw [hbasic]
    exact hs.basis.reorder ρ
  · show (s.1.reorder ρ).values.Canonical m n (s.2.reorder ρ).basic
    rw [hvalues, hbasic]
    exact hs.canonical.reorder ρ
  · show Values.Equivalent m n _ (s.1.reorder ρ).values
    rw [hvalues]
    exact .refl _ _ _

/-- Different rows have different basic variables. -/
theorem basic_injective (hs : CanonicalState m n M s) :
    ∀ i k, 1 ≤ i → i ≤ m → 1 ≤ k → k ≤ m → s.2.basic i = s.2.basic k → i = k :=
  fun _ _ hi him hk hkm heq => hs.canonical.basic_injective hi him hk hkm heq

end CanonicalState

/-! ## Rules -/

/-- On canonical states the rule makes the same choice in every order of the rows, and it pivots only on
nonzero entries. -/
def OrderFree (m n : ℕ) (rule : Rule) : Prop :=
  ∀ (ρ : RowOrder m) {M : Values} {s : State}, CanonicalState m n M s →
    (∃ status, rule s.1 s.2 = .ok (.stop status) ∧
      rule (s.1.reorder ρ) (s.2.reorder ρ) = .ok (.stop status)) ∨
    ∃ h t, rule s.1 s.2 = .ok (.pivot h (ρ.perm t)) ∧
      rule (s.1.reorder ρ) (s.2.reorder ρ) = .ok (.pivot h t) ∧
        h ≤ n ∧ 1 ≤ t ∧ t ≤ m ∧ s.1.values (ρ.perm t) h ≠ 0

/-- The entering column is found in the objective row. -/
theorem Tableau.Represents.enteringColumn_eq {T : Tableau} (hT : T.Represents m n M) :
    T.enteringColumn = .ok ((List.range' 1 n).find? fun j => decide (M 0 j < 0)) := by
  unfold enteringColumn
  rw [hT.columns]
  apply firstIndex_eq_find
  intro j _ hj
  rw [hT.reducedCost (by omega)]
  simp [bind, Except.bind, pure, Except.pure]

/-- Bland's rule does not depend on the order of the rows. -/
theorem orderFree_primalRule : OrderFree m n (Tableau.primalRule .exact) := by
  intro ρ M s hs
  have hT := hs.tableau.reorder ρ
  have hB := hs.basis.reorder ρ
  have hcolumn : (s.1.reorder ρ).enteringColumn = s.1.enteringColumn := by
    rw [hT.enteringColumn_eq, hs.tableau.enteringColumn_eq, Values.reorder, ρ.perm_zero]
  rcases hs.tableau.enteringColumn_cases with ⟨hnone, -⟩ | ⟨h, hsome, -, hhn, -, -⟩
  · left
    refine ⟨.optimal, Tableau.primalRule_of_optimal .exact _ hnone, ?_⟩
    exact Tableau.primalRule_of_optimal .exact _ (hcolumn.trans hnone)
  · rcases hs.tableau.pivotRow hs.basis hhn with ⟨best, hbest, hleast⟩
    rcases hT.pivotRow hB hhn with ⟨best', hbest', hleast'⟩
    have hranks : ∀ i k, 1 ≤ i → i ≤ m → 1 ≤ k → k ≤ m →
        ratioRank s.1.values s.2.basic h i = ratioRank s.1.values s.2.basic h k → i = k := by
      intro i k hi him hk hkm heq
      exact hs.basic_injective i k hi him hk hkm (Prod.ext_iff.mp (toLex.injective heq)).2
    obtain rfl := hleast.perm_eq ρ hranks hleast'
    cases best' with
    | none =>
        left
        refine ⟨.unbounded, ?_, ?_⟩
        · simp [Tableau.primalRule, hsome, hbest, bind, Except.bind, pure, Except.pure]
        · simp [Tableau.primalRule, hcolumn, hsome, hbest', bind, Except.bind, pure, Except.pure]
    | some t =>
        right
        rcases hleast' with ⟨ht, htm, hentry, -⟩
        refine ⟨h, t, ?_, ?_, hhn, ht, by omega, hentry.ne'⟩
        · simp [Tableau.primalRule, hsome, hbest, bind, Except.bind, pure, Except.pure]
        · simp [Tableau.primalRule, hcolumn, hsome, hbest', bind, Except.bind, pure, Except.pure]

/-- The dual rule does not depend on the order of the rows. -/
theorem orderFree_dualRule : OrderFree m n (Tableau.dualRule .exact) := by
  intro ρ M s hs
  have hT := hs.tableau.reorder ρ
  have hB := hs.basis.reorder ρ
  rcases hs.tableau.leavingRow hs.basis with ⟨row, hrow, hleast⟩
  rcases hT.leavingRow hB with ⟨row', hrow', hleast'⟩
  obtain rfl := hleast.perm_eq ρ hs.basic_injective hleast'
  cases row' with
  | none =>
      left
      exact ⟨.optimal, Tableau.dualRule_of_feasible .exact hrow, Tableau.dualRule_of_feasible .exact hrow'⟩
  | some t =>
      rcases hleast' with ⟨ht, htm, -, -⟩
      have htm : t ≤ m := by omega
      rcases hs.tableau.dualColumn (ρ.perm_le htm) with ⟨column, hcolumn, hcolumnLeast⟩
      rcases hT.dualColumn htm with ⟨column', hcolumn', hcolumnLeast'⟩
      have hratios : dualRatio (s.1.values.reorder ρ) t = dualRatio s.1.values (ρ.perm t) := by
        funext j
        rw [dualRatio, dualRatio, Values.reorder, ρ.perm_zero]
        rfl
      rw [hratios] at hcolumnLeast'
      obtain rfl := hcolumnLeast.unique hcolumnLeast'
      rw [Option.map_some] at hrow
      cases column with
      | none =>
          left
          refine ⟨.unbounded, ?_, ?_⟩
          · simp [Tableau.dualRule, hrow, hcolumn, bind, Except.bind, pure, Except.pure]
          · simp [Tableau.dualRule, hrow', hcolumn', bind, Except.bind, pure, Except.pure]
      | some h =>
          right
          rcases hcolumnLeast with ⟨hh, hhn, hentry, -⟩
          refine ⟨h, t, ?_, ?_, by omega, ht, htm, hentry.ne⟩
          · simp [Tableau.dualRule, hrow, hcolumn, bind, Except.bind, pure, Except.pure]
          · simp [Tableau.dualRule, hrow', hcolumn', bind, Except.bind, pure, Except.pure]

/-! ## Pivots -/

/-- A pivot on the numbers commutes with the reordering. -/
theorem Values.pivot_reorder (M : Values) (h t : ℕ) :
    (M.reorder ρ).pivot h t .all = (M.pivot h (ρ.perm t) .all).reorder ρ := by
  funext i j
  by_cases hit : i = t
  · subst hit
    rw [Values.reorder, Values.pivot_self, Values.pivot_self]
    rfl
  · have hne : ρ.perm i ≠ ρ.perm t := fun heq => hit (ρ.perm_eq_iff.mp heq)
    rw [Values.reorder, Values.pivot_of_ne _ _ _ hit, Values.pivot_of_ne _ _ _ hne]
    rfl

/-- A pivot commutes with the reordering; its leaving variable and its element stay. -/
theorem CanonicalState.takePivot_reorder (hs : CanonicalState m n M s) {h t : ℕ} (hh : h ≤ n)
    (ht : 1 ≤ t) (htm : t ≤ m) (hne : s.1.values (ρ.perm t) h ≠ 0) :
    ∃ s' leaving element,
      ExactSimplex.takePivot .exact s.1 s.2 h (ρ.perm t) = .ok (s'.1, s'.2, leaving, element) ∧
      ExactSimplex.takePivot .exact (s.1.reorder ρ) (s.2.reorder ρ) h t =
        .ok (s'.1.reorder ρ, s'.2.reorder ρ, leaving, element) ∧ CanonicalState m n M s' := by
  rcases ρ.perm_mem ht htm with ⟨hpos, hle⟩
  rcases hs.pivot_enter hh hpos hle hne with ⟨U, C, hU, hC, hs', hex⟩
  have hre := hs.reorder ρ
  have hvalues : (s.1.reorder ρ).values = s.1.values.reorder ρ := hs.tableau.values_reorder ρ
  have hbasic : (s.2.reorder ρ).basic = s.2.basic ∘ ρ.perm := Basis.basic_reorder ρ hs.basis.size
  have hne' : (s.reorder ρ).1.values t h ≠ 0 := by
    show (s.1.reorder ρ).values t h ≠ 0
    rw [hvalues]
    exact hne
  rcases hre.pivot_enter hh ht htm hne' with ⟨U', C', hU', hC', hs'', hex'⟩
  have hUvalues : U.values = s.1.values.pivot h (ρ.perm t) .all := hex.values
  have hCbasic : C.basic = Function.update s.2.basic (ρ.perm t) h := hex.basic
  -- Both tableaux are well formed and hold the same numbers.
  have htableau : U' = U.reorder ρ := by
    refine hs''.tableau.eq (hs'.tableau.reorder ρ) fun i _ j _ => ?_
    have hUvalues' : U'.values = (s.1.reorder ρ).values.pivot h t .all := hex'.values
    show U'.values i j = (U.values.reorder ρ) i j
    rw [hUvalues', hvalues, Values.pivot_reorder, hUvalues]
  have hbasis : C' = C.reorder ρ := by
    refine hs''.basis.eq ?_
    have hCbasic' : C'.basic = Function.update (s.2.reorder ρ).basic t h := hex'.basic
    have hupdated : Function.update (s.2.basic ∘ ρ.perm) t h =
        Function.update s.2.basic (ρ.perm t) h ∘ ρ.perm :=
      (Function.update_comp_eq_of_injective s.2.basic ρ.perm.injective t h).symm
    show (C.reorder ρ).Represents m C'.basic
    rw [hCbasic', hbasic, hupdated, ← hCbasic]
    exact hs'.basis.reorder ρ
  have hleaving : (s.2.reorder ρ).inRow t = .ok (s.2.basic (ρ.perm t)) := (hs.basis.reorder ρ).inRow ht htm
  have helement : (s.1.reorder ρ).get t h = .ok (ofRat (s.1.values (ρ.perm t) h)) :=
    (hs.tableau.reorder ρ).get htm hh
  have hpivot' : (s.1.reorder ρ).pivot .exact h t .all = .ok U' := hU'
  have henter' : (s.2.reorder ρ).enter t h = .ok C' := hC'
  refine ⟨(U, C), s.2.basic (ρ.perm t), ofRat (s.1.values (ρ.perm t) h), ?_, ?_, hs'⟩
  · simp only [ExactSimplex.takePivot, hs.basis.inRow hpos hle, hs.tableau.get hle hh, hU, hC, bind,
      Except.bind, pure, Except.pure]
  · simp only [ExactSimplex.takePivot, hleaving, helement, hpivot', henter', htableau, hbasis, bind,
      Except.bind, pure, Except.pure]

/-! ## Runs -/

section Runs

variable {rule : Rule} (hrule : OrderFree m n rule)

include hrule

/-- Such a rule stays on canonical states: it makes its choice in the given order, too. -/
theorem OrderFree.progresses : Progresses .exact rule (CanonicalState m n M) := by
  intro s hs
  let given : RowOrder m := ⟨Equiv.refl ℕ, fun _ _ => rfl⟩
  rcases hrule given hs with ⟨status, hstop, -⟩ | ⟨h, t, hpivot, -, hh, ht, htm, hne⟩
  · exact Or.inl ⟨status, hstop⟩
  · rcases hs.takePivot_reorder given hh ht htm hne with ⟨s', leaving, element, htake, -, hs'⟩
    exact Or.inr ⟨s', ⟨h, t, leaving, element, hpivot, htake⟩, hs'⟩

variable (hs : CanonicalState m n M s) (stage : Stage) (budget : ℕ)

include hs

/-- A run on the rows in another order is the same run with all states in the other order, by induction on
the budget. -/
theorem OrderFree.runRule_reorder (index : ℕ) :
    runRule .exact stage rule budget index (s.1.reorder ρ) (s.2.reorder ρ) =
      (runRule .exact stage rule budget index s.1 s.2).map (Run.reorder ρ) := by
  induction budget generalizing index s with
  | zero => rfl
  | succ budget ih =>
      rcases hrule ρ hs with ⟨status, hstop, hstop'⟩ | ⟨h, t, hpivot, hpivot', hh, ht, htm, hne⟩
      · rw [runRule_of_stop .exact hstop, runRule_of_stop .exact hstop']
        rfl
      · rcases hs.takePivot_reorder ρ hh ht htm hne with ⟨s', leaving, element, htake, htake', hs'⟩
        have hrest := ih hs' (index + 1)
        simp only [runRule, hpivot, hpivot', htake, htake', hrest, bind, Except.bind]
        cases runRule .exact stage rule budget (index + 1) s'.1 s'.2 with
        | error fault => rfl
        | ok rest =>
            simp [Except.map, pure, Except.pure, Run.after, Run.reorder, Event.reorder]

/-- The frame of a stage holds no state, and the objective value stays with the objective row. -/
theorem OrderFree.runStage_reorder :
    runStage .exact stage rule budget (s.1.reorder ρ) (s.2.reorder ρ) =
      (runStage .exact stage rule budget s.1 s.2).map (Run.reorder ρ) := by
  have hinner := hrule.runRule_reorder ρ hs stage budget 0
  unfold runStage
  rw [hinner]
  cases hrun : runRule .exact stage rule budget 0 s.1 s.2 with
  | error fault => rfl
  | ok run =>
      have hlast : run.tableau.Represents m n run.tableau.values :=
        ((runRule_trajectory hrun).ready_finish hrule.progresses hs).tableau
      have hobjective : (run.tableau.reorder ρ).objectiveValue .exact =
          .ok (ofRat (-run.tableau.values 0 0)) := by
        rw [(hlast.reorder ρ).objectiveValue, Values.reorder, ρ.perm_zero]
      have hstate : (Run.reorder ρ run).tableau = run.tableau.reorder ρ := rfl
      have hresult : (Run.reorder ρ run).result = run.result := rfl
      simp only [Except.map, bind, Except.bind, hstate, hresult, hobjective, hlast.objectiveValue]
      cases run.result <;>
        simp [Functor.map, Except.map, pure, Except.pure, Run.reorder, Event.reorder]

end Runs

/-! ## The two methods -/

namespace CanonicalState

variable (hs : CanonicalState m n M s) (budget : ℕ)

include hs

/-- The primal method goes along with the rows. -/
theorem primalSimplex_reorder :
    (s.1.reorder ρ).primalSimplex .exact budget (s.2.reorder ρ) =
      (s.1.primalSimplex .exact budget s.2).map (Run.reorder ρ) :=
  orderFree_primalRule.runStage_reorder ρ hs .primal budget

/-- The dual method goes along with the rows. -/
theorem dualSimplex_reorder :
    (s.1.reorder ρ).dualSimplex .exact budget (s.2.reorder ρ) =
      (s.1.dualSimplex .exact budget s.2).map (Run.reorder ρ) :=
  orderFree_dualRule.runStage_reorder ρ hs .dual budget

end CanonicalState

end ExactSimplex
