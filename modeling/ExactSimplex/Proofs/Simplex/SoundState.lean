import ExactSimplex.Proofs.Simplex.Run
import ExactSimplex.Proofs.Tableau.Identity
import ExactSimplex.Simplex.Dual
import ExactSimplex.Simplex.Primal

/-!
# Sound states

A state is sound if its tableau stores proper fractions and its basis is canonical.  The rules of both
methods look at a state without leaving it, and they only ask for pivots on nonzero cells, so every
state that they reach from a sound one is sound again.  None of this needs right-hand sides or reduced costs
of any sign, nor values that are right.

Main results:

- Theorem {lit}`SoundState.canonicalHead`: what soundness means for the basis.
- Theorems {lit}`storedRule_primalRule` and {lit}`storedRule_dualRule`: the rules choose nonzero cells.
- Theorem {lit}`StoredRule.unitState_of_step`: a pivot of such a rule keeps unit vectors.
- Theorem {lit}`SoundRule.soundState_of_step`: a pivot of such a rule leads to a sound state.
- Theorem {lit}`SoundRule.safe_runStage`: a stage from a sound state is safe and ends in one.
-/

namespace ExactSimplex

open Calc Fraction

/-- The basis lists one column for every constraint row, all different and within the tableau, and it
passes the test for a canonical basis. -/
structure CanonicalHead (A : Arithmetic) (s : State) : Prop where
  size : s.2.size = s.1.constraints
  nodup : s.2.columns.Nodup
  range : ∀ c ∈ s.2.columns, 1 ≤ c ∧ c ≤ s.1.columns
  canonical : s.1.isCanonical A s.2 = .ok true

/-- A tableau that stores proper fractions, with as many basic columns as constraint rows. -/
structure StoredState (A : Arithmetic) (m n : ℕ) (s : State) : Prop where
  stores : s.1.Stores A m n s.1.cells
  basis : s.2.Represents m s.2.basic

/-- A stored state whose basic columns are the unit vectors of their rows. -/
structure UnitState (A : Arithmetic) (m n : ℕ) (s : State) : Prop extends StoredState A m n s where
  units : s.1.cells.Units m n s.2.basic

/-- A tableau that stores proper fractions, with a canonical basis. -/
structure SoundState (A : Arithmetic) (m n : ℕ) (s : State) : Prop where
  stores : s.1.Stores A m n s.1.cells
  basis : s.2.Represents m s.2.basic
  canonical : s.1.cells.Canonical m n s.2.basic

/-- A pivot that is chosen lies in a column and a constraint row of the tableau, on a nonzero cell. -/
def Choice.Sound (m n : ℕ) (E : Cells) : Choice → Prop
  | .stop _ => True
  | .pivot h t => 1 ≤ h ∧ h ≤ n ∧ 1 ≤ t ∧ t ≤ m ∧ (E t h).isZero = false

/-- A rule that is safe in stored states and chooses nonzero cells there. -/
def StoredRule (A : Arithmetic) (rule : Rule) : Prop :=
  ∀ m n s, StoredState A m n s → Safe A (rule s.1 s.2) (Choice.Sound m n s.1.cells)

/-- A rule that is safe in sound states and chooses nonzero cells there. -/
def SoundRule (A : Arithmetic) (rule : Rule) : Prop :=
  ∀ m n s, SoundState A m n s → Safe A (rule s.1 s.2) (Choice.Sound m n s.1.cells)

variable {A : Arithmetic} {T : Tableau} {B : Basis} {m n h t : ℕ} {E F : Cells} {β : ℕ → ℕ}
  {s s' : State}

/-! ## States -/

/-- Only the cells within the sizes matter. -/
theorem Cells.Units.congr (hE : E.Units m n β) (h : ∀ i ≤ m, ∀ j ≤ n, F i j = E i j) :
    F.Units m n β := by
  refine ⟨hE.basic_le, fun i hi him k hk => ?_⟩
  rw [h k hk _ (hE.basic_le i hi him)]
  exact hE.unit i hi him k hk

/-- A state has unit vectors whatever name its cells and its basic columns have. -/
theorem Tableau.Stores.unitState (hT : T.Stores A m n E) (hB : B.Represents m β)
    (hE : E.Units m n β) : UnitState A m n (T, B) := by
  have hbasic : B.basic = β := hB.basic
  refine ⟨⟨hT.congr fun i hi j hj => (hT.cells_eq hi hj).symm, ⟨hB.size, rfl⟩⟩, ?_⟩
  dsimp only
  rw [hbasic]
  exact hE.congr fun i hi j hj => hT.cells_eq hi hj

/-- A state is sound whatever name its cells and its basic variables have. -/
theorem Tableau.Stores.soundState (hT : T.Stores A m n E) (hB : B.Represents m β)
    (hE : E.Canonical m n β) : SoundState A m n (T, B) := by
  have hs := hT.unitState hB hE.units
  have hbasic : B.basic = β := hB.basic
  exact ⟨hs.stores, hs.basis, by rw [hbasic]; exact hE.basic_pos, hs.units.basic_le, hs.units.unit⟩

/-- A pivot within a stored state is safe, and how it computes the cells. -/
theorem StoredState.safe_takePivot (hA : A.holds 1 = true) (hs : StoredState A m n s) (hhn : h ≤ n)
    (ht : 1 ≤ t) (htm : t ≤ m) :
    Safe A (takePivot A s.1 s.2 h t) fun result => ∃ F, result.1.Stores A m n F ∧
      s.1.cells.Pivoted A m n F h t .all ∧
      result.2.1.Represents m (Function.update s.2.basic t h) := by
  unfold takePivot
  rw [hs.basis.inRow ht htm, hs.stores.get t htm h hhn]
  refine safe_ok_bind (safe_ok_bind ?_)
  refine (hs.stores.pivot hA hhn htm .all fun i hi => by cases hi).bind fun U hU => ?_
  rcases hU with ⟨F, hU, hpivoted⟩
  rcases hs.basis.enter ht htm h with ⟨C, hC, hCβ⟩
  rw [hC]
  exact safe_ok_bind (safe_pure ⟨F, hU, hpivoted, hCβ⟩)

/-- No column is basic twice. -/
theorem UnitState.nodup (hs : UnitState A m n s) : s.2.columns.Nodup :=
  hs.basis.nodup_columns fun _ _ hi him hk hkm heq => hs.units.basic_injective hi him hk hkm heq

namespace SoundState

/-- The basis of a sound state consists of unit vectors. -/
theorem unitState (hs : SoundState A m n s) : UnitState A m n s :=
  ⟨⟨hs.stores, hs.basis⟩, hs.canonical.units⟩

/-- The basis of a sound state passes every test. -/
theorem canonicalHead (hA : A.holds 1 = true) (hs : SoundState A m n s) : CanonicalHead A s where
  size := hs.basis.size.trans hs.stores.constraints.symm
  nodup := hs.unitState.nodup
  range := by
    intro c hc
    rcases hs.basis.mem_columns.mp hc with ⟨i, hi, him, rfl⟩
    rw [hs.stores.columns]
    exact ⟨hs.canonical.basic_pos i hi him, hs.canonical.basic_le i hi him⟩
  canonical := (hs.stores.isCanonical_iff hA hs.basis fun i hi him =>
    ⟨hs.canonical.basic_pos i hi him, hs.canonical.basic_le i hi him⟩).mpr hs.canonical

/-- A pivot on a nonzero cell is safe and leads to a sound state. -/
theorem safe_takePivot (hA : A.holds 1 = true) (hs : SoundState A m n s) (hh : 1 ≤ h) (hhn : h ≤ n)
    (ht : 1 ≤ t) (htm : t ≤ m) (hne : (s.1.cells t h).isZero = false) :
    Safe A (takePivot A s.1 s.2 h t) fun result => SoundState A m n (result.1, result.2.1) := by
  refine (hs.unitState.safe_takePivot hA hhn ht htm).imp fun result hresult => ?_
  rcases hresult with ⟨F, hU, hpivoted, hC⟩
  exact hU.soundState hC (hs.canonical.pivot hA hpivoted hs.stores.proper hh hhn htm hne)

/-- The objective value of a sound state can be read off. -/
theorem safe_objectiveValue (hA : A.holds 1 = true) (hs : SoundState A m n s) :
    Safe A (s.1.objectiveValue A) fun _ => True := by
  unfold Tableau.objectiveValue
  rw [hs.stores.get 0 (Nat.zero_le m) 0 (Nat.zero_le n)]
  refine safe_ok_bind ((safe_neg hA ?_).imp fun _ _ => trivial)
  exact hs.stores.proper 0 (Nat.zero_le m) 0 (Nat.zero_le n)

/-- The objective value that ends a stage. -/
theorem safe_some_objectiveValue (hA : A.holds 1 = true) (hs : SoundState A m n s) :
    Safe A (some <$> s.1.objectiveValue A) fun _ => True :=
  (hs.safe_objectiveValue hA).map fun _ _ => trivial

end SoundState

/-! ## The rules -/

theorem isZero_of_isPositive {a : Fraction} (ha : a.isPositive = true) : a.isZero = false := by
  have hpos : 0 < a.num := by simpa [isPositive] using ha
  simpa [isZero] using hpos.ne'

theorem isZero_of_isNegative {a : Fraction} (ha : a.isNegative = true) : a.isZero = false := by
  have hneg : a.num < 0 := by simpa [isNegative] using ha
  simpa [isZero] using hneg.ne

namespace SoundState

/-- The best row so far is a constraint row with a nonzero cell in the column. -/
def BestRow (m : ℕ) (E : Cells) (h : ℕ) (best : Option (ℕ × Fraction)) : Prop :=
  ∀ t least, best = some (t, least) → 1 ≤ t ∧ t ≤ m ∧ (E t h).isZero = false

/-- The best row of least basic index so far is a constraint row. -/
def LeavingRow (m : ℕ) (best : Option (ℕ × ℕ)) : Prop :=
  ∀ t index, best = some (t, index) → 1 ≤ t ∧ t ≤ m

/-- The best column so far has a nonzero cell in the row. -/
def BestColumn (n : ℕ) (E : Cells) (t : ℕ) (best : Option (ℕ × Fraction)) : Prop :=
  ∀ h least, best = some (h, least) → 1 ≤ h ∧ h ≤ n ∧ (E t h).isZero = false

end SoundState

namespace StoredState

open SoundState

/-- The comparison of two rows finds their basic variables. -/
theorem safe_leavesBefore (hA : A.holds 1 = true) (hs : StoredState A m n s) {row : ℕ} (hrow : 1 ≤ row)
    (hrowm : row ≤ m) (ratio : Fraction) {best : Option (ℕ × Fraction)}
    (hbest : BestRow m s.1.cells h best) :
    Safe A (Tableau.leavesBefore A s.2 row ratio best) fun _ => True := by
  cases best with
  | none => exact safe_pure trivial
  | some best =>
      rcases best with ⟨bestRow, least⟩
      rcases hbest bestRow least rfl with ⟨hbestRow, hbestRowm, -⟩
      refine (safe_lt hA ratio least).bind fun before _ => ?_
      split
      · exact safe_pure trivial
      · refine (safe_eq hA ratio least).bind fun same _ => ?_
        split
        · rw [hs.basis.inRow hrow hrowm, hs.basis.inRow hbestRow hbestRowm]
          exact safe_ok_bind (safe_ok_bind (safe_pure trivial))
        · exact safe_pure trivial

/-- The ratio test keeps a best row, by induction on the rows that are left. -/
theorem safe_ratioTest (hA : A.holds 1 = true) (hs : StoredState A m n s) (hhn : h ≤ n)
    (row count : ℕ) (best : Option (ℕ × Fraction)) (hrow : 1 ≤ row) (hcount : row + count ≤ m + 1)
    (hbest : BestRow m s.1.cells h best) :
    Safe A (s.1.ratioTest A s.2 h row count best) (BestRow m s.1.cells h) := by
  induction count generalizing row best with
  | zero => exact safe_pure hbest
  | succ count ih =>
      have hrowm : row ≤ m := by omega
      unfold Tableau.ratioTest
      rw [hs.stores.get row hrowm h hhn]
      refine safe_ok_bind ?_
      by_cases hpos : (s.1.cells row h).isPositive = true
      · rw [if_pos hpos, hs.stores.rhs hrowm]
        refine safe_ok_bind ((safe_div hA _ _).bind fun ratio _ => ?_)
        refine (hs.safe_leavesBefore hA hrow hrowm ratio hbest).bind fun before _ => ?_
        split
        · refine ih (row + 1) _ (by omega) (by omega) fun t least heq => ?_
          cases heq
          exact ⟨hrow, hrowm, isZero_of_isPositive hpos⟩
        · exact ih (row + 1) best (by omega) (by omega) hbest
      · rw [if_neg hpos]
        exact ih (row + 1) best (by omega) (by omega) hbest

/-- The search for a leaving row keeps a constraint row, by induction on the rows that are left. -/
theorem safe_leavingRowFrom (hs : StoredState A m n s) (row count : ℕ) (best : Option (ℕ × ℕ))
    (hrow : 1 ≤ row) (hcount : row + count ≤ m + 1) (hbest : LeavingRow m best) :
    Safe A (s.1.leavingRowFrom s.2 row count best) (LeavingRow m) := by
  induction count generalizing row best with
  | zero => exact safe_pure hbest
  | succ count ih =>
      have hrowm : row ≤ m := by omega
      have htake : ∀ index, LeavingRow m (some (row, index)) := by
        rintro index t index' heq
        cases heq
        exact ⟨hrow, hrowm⟩
      have hnext := fun best => ih (row + 1) best (by omega) (by omega)
      unfold Tableau.leavingRowFrom
      rw [hs.stores.rhs hrowm]
      refine safe_ok_bind ?_
      split
      · rw [hs.basis.inRow hrow hrowm]
        refine safe_ok_bind ?_
        cases best with
        | none => exact hnext _ (htake _)
        | some best =>
            dsimp only
            split
            · exact hnext _ (htake _)
            · exact hnext _ hbest
      · exact hnext best hbest

/-- The dual ratio test keeps a best column, by induction on the columns that are left. -/
theorem safe_dualRatioTest (hA : A.holds 1 = true) (hs : StoredState A m n s) (htm : t ≤ m)
    (column count : ℕ) (best : Option (ℕ × Fraction)) (hcolumn : 1 ≤ column)
    (hcount : column + count ≤ n + 1) (hbest : BestColumn n s.1.cells t best) :
    Safe A (s.1.dualRatioTest A t column count best) (BestColumn n s.1.cells t) := by
  induction count generalizing column best with
  | zero => exact safe_pure hbest
  | succ count ih =>
      have hcn : column ≤ n := by omega
      unfold Tableau.dualRatioTest
      rw [hs.stores.get t htm column hcn]
      refine safe_ok_bind ?_
      by_cases hneg : (s.1.cells t column).isNegative = true
      · rw [if_pos hneg, hs.stores.reducedCost hcn]
        refine safe_ok_bind ((safe_div hA _ _).bind fun quotient hquotient => ?_)
        refine (safe_abs hA hquotient).bind fun ratio _ => ?_
        have hbefore : Safe A (Tableau.entersBefore A ratio best) fun _ => True := by
          cases best with
          | none => exact safe_pure trivial
          | some best => exact safe_lt hA ratio best.2
        refine hbefore.bind fun before _ => ?_
        split
        · refine ih (column + 1) _ (by omega) (by omega) fun h least heq => ?_
          cases heq
          exact ⟨hcolumn, hcn, isZero_of_isNegative hneg⟩
        · exact ih (column + 1) best (by omega) (by omega) hbest
      · rw [if_neg hneg]
        exact ih (column + 1) best (by omega) (by omega) hbest

end StoredState

/-- The primal method pivots on positive cells only. -/
theorem storedRule_primalRule (hA : A.holds 1 = true) : StoredRule A (Tableau.primalRule A) := by
  intro m n s hs
  have hentering : Safe A s.1.enteringColumn fun found => ∀ h, found = some h → 1 ≤ h ∧ h ≤ n := by
    refine (safe_firstIndex (p := fun _ => True) fun j _ hj => ?_).imp fun found hfound h hh => ?_
    · rw [hs.stores.columns] at hj
      rw [hs.stores.reducedCost (by omega)]
      exact safe_ok_bind (safe_pure fun _ => trivial)
    · have := hfound h hh
      have := hs.stores.columns
      omega
  refine hentering.bind fun found hfound => ?_
  cases found with
  | none => exact safe_pure trivial
  | some h =>
      rcases hfound h rfl with ⟨hh, hhn⟩
      -- Only rows with a positive cell take part in the ratio test.
      have hrow : Safe A (s.1.pivotRow A s.2 h) fun found => ∀ t, found = some t →
          1 ≤ t ∧ t ≤ m ∧ (s.1.cells t h).isZero = false := by
        unfold Tableau.pivotRow
        rw [hs.stores.constraints]
        refine (hs.safe_ratioTest hA hhn 1 m none (Nat.le_refl 1) (by omega) fun t least heq => by
          cases heq).map fun best hbest t ht => ?_
        rcases Option.map_eq_some_iff.mp ht with ⟨⟨t, least⟩, rfl, rfl⟩
        exact hbest t least rfl
      refine hrow.bind fun found hfound => ?_
      cases found with
      | none => exact safe_pure trivial
      | some t =>
          rcases hfound t rfl with ⟨ht, htm, hne⟩
          exact safe_pure ⟨hh, hhn, ht, htm, hne⟩

/-- The dual method pivots on negative cells only. -/
theorem storedRule_dualRule (hA : A.holds 1 = true) : StoredRule A (Tableau.dualRule A) := by
  intro m n s hs
  have hleaving : Safe A (s.1.leavingRow s.2) fun found => ∀ t, found = some t → 1 ≤ t ∧ t ≤ m := by
    unfold Tableau.leavingRow
    rw [hs.stores.constraints]
    refine (hs.safe_leavingRowFrom 1 m none (Nat.le_refl 1) (by omega) fun t index heq => by
      cases heq).map fun best hbest t ht => ?_
    rcases Option.map_eq_some_iff.mp ht with ⟨⟨t, index⟩, rfl, rfl⟩
    exact hbest t index rfl
  refine hleaving.bind fun found hfound => ?_
  cases found with
  | none => exact safe_pure trivial
  | some t =>
      rcases hfound t rfl with ⟨ht, htm⟩
      have hcolumn : Safe A (s.1.dualColumn A t) fun found => ∀ h, found = some h →
          1 ≤ h ∧ h ≤ n ∧ (s.1.cells t h).isZero = false := by
        unfold Tableau.dualColumn
        rw [hs.stores.columns]
        refine (hs.safe_dualRatioTest hA htm 1 n none (Nat.le_refl 1) (by omega) fun h least heq => by
          cases heq).map fun best hbest h hh => ?_
        rcases Option.map_eq_some_iff.mp hh with ⟨⟨h, least⟩, rfl, rfl⟩
        exact hbest h least rfl
      refine hcolumn.bind fun found hfound => ?_
      cases found with
      | none => exact safe_pure trivial
      | some h =>
          rcases hfound h rfl with ⟨hh, hhn, hne⟩
          exact safe_pure ⟨hh, hhn, ht, htm, hne⟩

/-- The primal rule pivots on nonzero cells and keeps states sound. -/
theorem soundRule_primalRule (hA : A.holds 1 = true) : SoundRule A (Tableau.primalRule A) :=
  fun m n s hs => storedRule_primalRule hA m n s hs.unitState.toStoredState

/-- The dual rule pivots on nonzero cells and keeps states sound. -/
theorem soundRule_dualRule (hA : A.holds 1 = true) : SoundRule A (Tableau.dualRule A) :=
  fun m n s hs => storedRule_dualRule hA m n s hs.unitState.toStoredState

/-! ## Runs -/

/-- A pivot that a rule chooses keeps the unit vectors. -/
theorem StoredRule.unitState_of_step {rule : Rule} (hA : A.holds 1 = true) (hrule : StoredRule A rule)
    (hs : UnitState A m n s) (hstep : PivotStep A rule s s') : UnitState A m n s' := by
  rcases hstep with ⟨h, t, leaving, element, hchoice, hpivot⟩
  rcases (hrule m n s hs.toStoredState).of_eq_ok hchoice with ⟨-, hhn, ht, htm, hne⟩
  rcases (hs.safe_takePivot hA hhn ht htm).of_eq_ok hpivot with ⟨F, hU, hpivoted, hC⟩
  exact hU.unitState hC (hs.units.pivot hA hpivoted hs.stores.proper hhn htm hne)

namespace SoundRule

variable {rule : Rule} {stage : Stage}

/-- A pivot that a sound rule chooses leads to a sound state. -/
theorem soundState_of_step (hA : A.holds 1 = true) (hrule : SoundRule A rule)
    (hs : SoundState A m n s) (hstep : PivotStep A rule s s') : SoundState A m n s' := by
  rcases hstep with ⟨h, t, leaving, element, hchoice, hpivot⟩
  rcases (hrule m n s hs).of_eq_ok hchoice with ⟨hh, hhn, ht, htm, hne⟩
  have hs' := (hs.safe_takePivot hA hh hhn ht htm hne).of_eq_ok hpivot
  exact hs'

/-- A run from a sound state is safe and ends in a sound state, by induction on the budget. -/
theorem safe_runRule (hA : A.holds 1 = true) (hrule : SoundRule A rule) (budget index : ℕ)
    (hs : SoundState A m n (T, B)) :
    Safe A (runRule A stage rule budget index T B) fun run =>
      SoundState A m n (run.tableau, run.basis) := by
  induction budget generalizing index T B with
  | zero => exact trivial
  | succ budget ih =>
      refine (hrule m n _ hs).bind fun choice hchoice => ?_
      cases choice with
      | stop status => exact safe_pure hs
      | pivot h t =>
          rcases hchoice with ⟨hh, hhn, ht, htm, hne⟩
          refine (hs.safe_takePivot hA hh hhn ht htm hne).bind fun ⟨T', B', leaving, element⟩ hs' => ?_
          exact (ih (index + 1) hs').bind fun rest hrest => safe_pure hrest

/-- A stage from a sound state is safe and ends in a sound state. -/
theorem safe_runStage (hA : A.holds 1 = true) (hrule : SoundRule A rule) (budget : ℕ)
    (hs : SoundState A m n (T, B)) :
    Safe A (runStage A stage rule budget T B) fun run =>
      SoundState A m n (run.tableau, run.basis) := by
  refine (hrule.safe_runRule hA budget 0 hs).bind fun run hrun => ?_
  cases hresult : run.result with
  | unbounded => exact safe_pure hrun
  | optimal => exact (hrun.safe_some_objectiveValue hA).bind fun _ _ => safe_pure hrun

end SoundRule
end ExactSimplex
