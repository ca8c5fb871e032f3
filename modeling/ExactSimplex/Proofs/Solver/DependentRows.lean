import ExactSimplex.Proofs.Simplex.EventWords
import ExactSimplex.Proofs.Simplex.PhaseOne
import ExactSimplex.Proofs.Solver.Methods

/-!
# The row that phase one blames

When phase one fails it names the row in which an artificial variable cannot be swapped out.  What it has
found is that the row this artificial variable was made for depends on the others.  The two are the same
row as long as no artificial variable enters the basis again, because the one that was made for a row is
basic in this row or nowhere.  After a degenerate pivot that brings one back into another row they differ.

Main results:

- Theorem {lit}`runRule_atHome`: a run that brings no artificial variable back leaves each in its own row.
- Theorem {lit}`Tableau.driveOut_basic`: driving out has not touched the row at which it ends.
- Theorem {lit}`notFullRank_blames`: the row of the artificial variable depends on the others.
- Theorem {lit}`not_forall_dependentRow`: the row that is named need not.
-/

namespace ExactSimplex

open Calc Finset

variable {A : Arithmetic} {budget m n : ℕ} {M : Values} {T : Tableau} {B : Basis}

/-! ## Dependent rows -/

/-- The coefficients of the constraint row are a linear combination of those of the other rows. -/
structure Values.DependentRow (M : Values) (m n k : ℕ) : Prop where
  row_pos : 1 ≤ k
  row_le : k ≤ m
  combination : ∃ c : ℕ → ℚ, ∀ j, 1 ≤ j → j ≤ n → M k j = ∑ i ∈ (Icc 1 m).erase k, c i * M i j

/-- A row that takes part in a vanishing combination depends on the others. -/
theorem Values.DependentRow.of_vanishing {k : ℕ} {c : ℕ → ℚ} (hk : 1 ≤ k) (hkm : k ≤ m)
    (hne : c k ≠ 0) (hvanish : ∀ j, 1 ≤ j → j ≤ n → ∑ i ∈ Icc 1 m, c i * M i j = 0) :
    M.DependentRow m n k := by
  refine ⟨hk, hkm, fun i => -c i / c k, fun j hj hjn => ?_⟩
  have hsplit := add_sum_erase (Icc 1 m) (fun i => c i * M i j) (mem_Icc.mpr ⟨hk, hkm⟩)
  rw [hvanish j hj hjn] at hsplit
  have hfactor : ∑ i ∈ (Icc 1 m).erase k, -c i / c k * M i j =
      -(∑ i ∈ (Icc 1 m).erase k, c i * M i j) / c k := by
    rw [← sum_neg_distrib, sum_div]
    exact sum_congr rfl fun i _ => by ring
  rw [hfactor, eq_div_iff hne]
  linarith

/-! ## Artificial variables and their rows -/

/-- The columns that the pivots among the events bring into the basis. -/
def entering (events : List Event) : List ℕ :=
  (Record.pivots (events.map Event.record)).map fun pivot => pivot.2.1

/-- The columns that enter in two sequences are those of both. -/
theorem entering_append (first second : List Event) :
    entering (first ++ second) = entering first ++ entering second := by
  simp [entering, Record.pivots_append]

/-- Every artificial variable that is basic is basic in the row it was made for. -/
def Basis.AtHome (B : Basis) (n : ℕ) : Prop :=
  ∀ i, n < B.basic i → B.basic i = n + i

/-- Entering a column changes the basic variable of its row. -/
theorem Basis.basic_enter {C : Basis} {t h : ℕ} (henter : B.enter t h = .ok C) :
    C.basic = Function.update B.basic t h := by
  have hrange : 1 ≤ t ∧ t ≤ B.size := by
    unfold Basis.enter at henter
    split at henter
    · cases henter
    · omega
  rcases B.represents.enter hrange.1 hrange.2 h with ⟨C', hC', hrepresents⟩
  obtain rfl : C' = C := Except.ok.inj (hC'.symm.trans henter)
  exact hrepresents.basic

/-- If a variable of the program enters, the artificial variables that are left stay in their rows. -/
theorem Basis.AtHome.enter {C : Basis} {t h : ℕ} (hB : B.AtHome n) (hh : h ≤ n)
    (henter : B.enter t h = .ok C) : C.AtHome n := by
  intro i hlt
  rw [basic_enter henter] at hlt ⊢
  by_cases hit : i = t
  · rw [hit, Function.update_self] at hlt
    omega
  · rw [Function.update_of_ne hit] at hlt ⊢
    exact hB i hlt

/-- A run that brings no artificial variable back leaves each in its own row, by induction on the
budget. -/
theorem runRule_atHome {stage : Stage} {rule : Rule} {index : ℕ} {run : Run SimplexStatus}
    (h : runRule A stage rule budget index T B = .ok run) (hwithin : ∀ h ∈ entering run.events, h ≤ n)
    (hB : B.AtHome n) : run.basis.AtHome n := by
  induction budget generalizing index T B run with
  | zero => cases h
  | succ budget ih =>
      rcases runRule_cases A h with ⟨status, -, rfl⟩ |
        ⟨column, row, T', B', leaving, element, rest, -, hstep, hrest, rfl⟩
      · exact hB
      · rcases takePivot_parts A hstep with ⟨-, -, -, henter⟩
        have hentering : entering (rest.after
            [.iteration stage index T B, .pivot stage column leaving element]).events =
            column :: entering rest.events := by
          rw [Run.after, entering_append]
          rfl
        rw [hentering, List.forall_mem_cons] at hwithin
        have hlast := ih hrest hwithin.2 (hB.enter hwithin.1 henter)
        exact hlast

namespace Tableau

/-- At first all artificial variables are in their rows. -/
theorem atHome_artificialBasis (T : Tableau) : T.artificialBasis.AtHome T.columns := by
  intro i hlt
  rcases T.represents_artificialBasis with ⟨hrepresents, hbasic⟩
  rcases Nat.eq_zero_or_pos i with rfl | hi
  · simp [Basis.basic] at hlt
  · rcases Nat.lt_or_ge T.constraints i with him | him
    · rcases Nat.exists_eq_add_of_le' hi with ⟨i, rfl⟩
      have hnone : T.artificialBasis.columns[i]? = none := by
        rw [List.getElem?_eq_none_iff]
        have := hrepresents.size
        unfold Basis.size at this
        omega
      simp [Basis.basic, hnone] at hlt
    · exact hbasic i hi him

/-- Driving out goes through the rows in order, so it has not touched the one at which it ends; by induction
on the number of rows. -/
theorem driveOut_basic {row count t : ℕ} {d d' : Drive}
    (h : driveOut A n row count d = .ok (d', some t)) :
    row ≤ t ∧ d'.basis.basic t = d.basis.basic t := by
  induction count generalizing row d with
  | zero => cases pure_eq_ok.mp h
  | succ count ih =>
      rcases driveOut_cases h with hrest | ⟨rfl, hrow⟩ | ⟨basic, entered, V, C, -, henter, hrest⟩
      · rcases ih hrest with ⟨hle, hbasic⟩
        exact ⟨Nat.le_of_succ_le hle, hbasic⟩
      · cases hrow
        exact ⟨Nat.le_refl _, rfl⟩
      · rcases ih hrest with ⟨hle, hbasic⟩
        refine ⟨Nat.le_of_succ_le hle, hbasic.trans ?_⟩
        show C.basic t = d.basis.basic t
        rw [Basis.basic_enter henter, Function.update_of_ne (by omega)]

/-! ## Phase one -/

/-- What phase one has found when it names a row: in the last state before artificial variables are driven
out, the row has an artificial variable whose own row depends on the others.  It is the row itself if no
artificial variable has come back into the basis. -/
structure Blames (T : Tableau) (events : List Event) (row : ℕ) : Prop where
  row_pos : 1 ≤ row
  row_le : row ≤ T.constraints
  origin : ∃ last k, (snapshots events).getLast? = some last ∧ last.2.basic row = T.columns + k ∧
    T.values.DependentRow T.constraints T.columns k
  itself : (∀ h ∈ entering events, h ≤ T.columns) →
    T.values.DependentRow T.constraints T.columns row

/-- When phase one names a row, driving out ended at it: its artificial variable could not be swapped, and the
row that this variable was made for depends on the others. -/
theorem WellFormed.phaseOne_stuck (hT : T.WellFormed) {run : Run (Except SolveError Feasibility)}
    {row : ℕ} (h : T.phaseOne .exact budget B = .ok run)
    (hresult : run.result = .error (.notFullRank row)) :
    ∃ priced inner d, primalSimplex .exact budget priced T.artificialBasis = .ok inner ∧
      driveOut .exact T.columns 1 T.constraints
        ⟨inner.tableau, inner.basis, .started .phaseOne :: inner.events⟩ = .ok (d, some row) ∧
      run.events = d.events ∧ Stuck T.constraints T.columns (d.tableau, d.basis) row ∧
      T.values.DependentRow T.constraints T.columns (d.basis.basic row - T.columns) := by
  rcases phaseOne_parts h with ⟨start, priced, inner, residual, hstart, hpriced, hinner, hresidual, hend⟩
  cases hend with
  | infeasible _ => cases hresult
  | feasible _ _ _ _ _ _ => cases hresult
  | @dependent d row' hoptimal hzero hdrive =>
      cases hresult
      rcases hT.represents.artificialStart with ⟨start', priced', hstart', hpriced', hP, hpos, hrows⟩
      obtain rfl : start' = start := Except.ok.inj (hstart'.symm.trans hstart)
      obtain rfl : priced' = priced := Except.ok.inj (hpriced'.symm.trans hpriced)
      rcases hP.of_run hpos hinner with ⟨hlast, hlastPos, -⟩
      -- The method went on to drive out, so the artificial program has an optimum of cost zero.
      have hcorner : inner.tableau.values 0 0 = 0 := by
        have hvalue := hlast.tableau.objectiveValue
        rw [hresidual, Except.ok.injEq] at hvalue
        rw [hvalue] at hzero
        simpa using hzero
      have hstarted : DriveState T.constraints T.columns (T.values.artificial T.constraints T.columns)
          (inner.tableau, inner.basis) :=
        ⟨hlast, hlastPos, fun i => artificial_zero_of_corner hlast hlastPos hcorner⟩
      obtain ⟨d', dependent, hdrive', hd, hend⟩ := hstarted.driveOut 1 T.constraints
        ⟨inner.tableau, inner.basis, .started .phaseOne :: inner.events⟩ le_rfl (by omega)
        fun i hi hlt => by omega
      obtain ⟨rfl, rfl⟩ := Prod.mk.inj (Except.ok.inj (hdrive'.symm.trans hdrive))
      have hstuck : Stuck T.constraints T.columns (d'.tableau, d'.basis) row := hend
      rcases hd.combination hP.toCanonicalState (fun i => artificialBasis_basic hT.represents) hrows
        hstuck with ⟨c, hne, hvanish⟩
      have hrange := hd.artificial_range hstuck
      exact ⟨priced', inner, d', hinner, hdrive, rfl, hstuck,
        .of_vanishing hrange.1 hrange.2 hne hvanish⟩

/-- The row that phase one names has an artificial variable whose own row depends on the others. -/
theorem WellFormed.phaseOne_blames (hT : T.WellFormed) {run : Run (Except SolveError Feasibility)}
    {row : ℕ} (h : T.phaseOne .exact budget B = .ok run)
    (hresult : run.result = .error (.notFullRank row)) : T.Blames run.events row := by
  rcases hT.phaseOne_stuck h hresult with
    ⟨priced, inner, d, hinner, hdrive, hevents, hstuck, hdependent⟩
  -- The row that is stuck keeps the artificial variable that the primal method left there.
  have hbasic : d.basis.basic row = inner.basis.basic row := (driveOut_basic hdrive).2
  have hlt : T.columns < d.basis.basic row := hstuck.basic
  refine ⟨hstuck.row_pos, hstuck.row_le, ⟨(inner.tableau, inner.basis), _, ?_, ?_, hdependent⟩,
    fun hwithin => ?_⟩
  · rw [hevents, snapshots_driveOut hdrive]
    exact (runStage_trajectory hinner).finish
  · show inner.basis.basic row = T.columns + (d.basis.basic row - T.columns)
    omega
  · rcases driveOut_word hdrive with ⟨swaps, -, hswaps⟩
    rcases runStage_frame hinner with ⟨iterations, objective, hiterations, -, rfl⟩
    have hinside : ∀ h ∈ entering iterations.events, h ≤ T.columns := by
      intro h hmem
      apply hwithin h
      rw [hevents, hswaps, entering_append]
      refine List.mem_append_left _ ?_
      show h ∈ entering (iterations.events ++ _)
      rw [entering_append]
      exact List.mem_append_left _ hmem
    -- No artificial variable entered, so the one that is left is that of its own row.
    have hhome := runRule_atHome hiterations hinside T.atHome_artificialBasis row
    have hrow : d.basis.basic row - T.columns = row := by
      have hplace := hhome (hbasic ▸ hlt)
      rw [hbasic]
      exact Nat.sub_eq_of_eq_add' hplace
    rwa [← hrow]

/-- A report of a start changes nothing. -/
theorem Blames.started {events : List Event} {row : ℕ} (h : T.Blames events row) (stage : Stage) :
    T.Blames (.started stage :: events) row :=
  ⟨h.row_pos, h.row_le, h.origin, h.itself⟩

end Tableau

/-! ## The solver -/

/-- Cutting planes that name a row have it from phase one. -/
theorem Tableau.cuttingPlane_notFullRank {run : Run (Except SolveError IntegerStatus)} {e : SolveError}
    (h : T.cuttingPlane A budget B = .ok run) (hresult : run.result = .error e) :
    ∃ first : Run (Except SolveError Feasibility), T.phaseOne A budget B = .ok first ∧
      first.result = .error e ∧ run.events = .started .cuttingPlane :: first.events := by
  rcases cuttingPlane_frame h with ⟨inner, hinner, ⟨e', hinnerResult, rfl⟩ | ⟨status, _, hok, -, rfl⟩⟩
  · have hfailed : inner.result = .error e := hresult
    rcases cutFromStart_error hinner hfailed with ⟨first, hfirst, hfirstResult, rfl⟩
    exact ⟨first, hfirst, hfirstResult, rfl⟩
  · have hfailed : inner.result = .error e := hresult
    rw [hok] at hfailed
    cases hfailed

/-- When phase one fails, by itself or within a solve, the row that is named has an artificial variable
whose own row depends on the others.  It is the row that is named unless an artificial variable has come
back into the basis. -/
theorem notFullRank_blames (hT : T.WellFormed) (budget row : ℕ) :
    (∀ B run, T.phaseOne .exact budget B = .ok run → run.result = .error (.notFullRank row) →
      T.Blames run.events row) ∧
    ∀ (S : Solver) solved, S.method = .twoPhase ∨ S.method = .cuttingPlane →
      S.solve .exact budget T = .ok solved → solved.result = .error (.notFullRank row) →
        T.Blames solved.events row := by
  refine ⟨fun B run hrun hresult => hT.phaseOne_blames hrun hresult, ?_⟩
  rintro S solved (hmethod | hmethod) hsolve hresult <;> rw [Solver.solve, hmethod] at hsolve
  · rcases Solver.solveTwoPhase_cases hsolve with
      ⟨first, hfirst, ⟨e, hfailed, rfl⟩ | ⟨-, rfl⟩ | ⟨_, _, -, -, -, rfl⟩⟩ <;> cases hresult
    exact hT.phaseOne_blames hfirst hfailed
  · rcases Solver.solveInteger_cases hsolve with
      ⟨run, hrun, ⟨e, hfailed, rfl⟩ | ⟨_, _, -, -, rfl⟩⟩ <;> cases hresult
    rcases Tableau.cuttingPlane_notFullRank hrun hfailed with ⟨first, hfirst, hfailed, hframed⟩
    show T.Blames run.events row
    rw [hframed]
    exact (hT.phaseOne_blames hfirst hfailed).started .cuttingPlane

/-- A program with a row that is the sum of the other two. -/
def summed : Tableau where
  columns := 2
  constraints := 3
  entries := #[⟨0, 1⟩, ⟨1, 1⟩, ⟨0, 1⟩, ⟨2, 1⟩, ⟨1, 1⟩, ⟨1, 1⟩,
    ⟨3, 1⟩, ⟨1, 1⟩, ⟨2, 1⟩, ⟨5, 1⟩, ⟨2, 1⟩, ⟨3, 1⟩]

/-- A row that is the sum of two others is blamed by phase one and by cutting planes. -/
theorem notFullRank_blames_summed :
    (∃ run, summed.phaseOne .exact 9 ⟨[]⟩ = .ok run ∧ run.result = .error (.notFullRank 3) ∧
        summed.values.DependentRow 3 2 3) ∧
      ∃ solved, (⟨.cuttingPlane, none⟩ : Solver).solve .exact 9 summed = .ok solved ∧
        solved.result = .error (.notFullRank 3) ∧ summed.Blames solved.events 3 := by
  have hphase : (summed.phaseOne .exact 9 ⟨[]⟩).map (fun run => (run.result, entering run.events)) =
      .ok (.error (.notFullRank 3), [1, 2]) := by
    decide +kernel
  have hsolve : ((⟨.cuttingPlane, none⟩ : Solver).solve .exact 9 summed).map Solved.result =
      .ok (.error (.notFullRank 3)) := by
    decide +kernel
  rcases map_eq_ok.mp hphase with ⟨run, hrun, hshown⟩
  rcases map_eq_ok.mp hsolve with ⟨solved, hsolved, hfailed⟩
  rcases Prod.mk.inj hshown with ⟨hresult, hentering⟩
  rcases notFullRank_blames (T := summed) (by decide) 9 3 with ⟨hstage, hsolver⟩
  refine ⟨⟨run, hrun, hresult, ?_⟩, solved, hsolved, hfailed,
    hsolver _ solved (Or.inr rfl) hsolved hfailed⟩
  apply (hstage _ run hrun hresult).itself
  rw [hentering]
  decide

/-- The third of these rows is the first one less the second, and only the fourth has the second
variable. -/
def misblamed : Tableau where
  columns := 3
  constraints := 4
  entries := #[⟨0, 1⟩, ⟨0, 1⟩, ⟨0, 1⟩, ⟨0, 1⟩, ⟨0, 1⟩, ⟨-1, 1⟩, ⟨0, 1⟩, ⟨1, 1⟩,
    ⟨0, 1⟩, ⟨0, 1⟩, ⟨0, 1⟩, ⟨-1, 1⟩, ⟨0, 1⟩, ⟨-1, 1⟩, ⟨0, 1⟩, ⟨2, 1⟩,
    ⟨0, 1⟩, ⟨1, 1⟩, ⟨-1, 1⟩, ⟨1, 1⟩]

/-- The row that is named need not depend on the others. -/
theorem not_forall_dependentRow :
    ¬∀ (T : Tableau) (budget row : ℕ) run, T.WellFormed →
        T.phaseOne .exact budget ⟨[]⟩ = .ok run → run.result = .error (.notFullRank row) →
          T.values.DependentRow T.constraints T.columns row := by
  intro hall
  have hphase : (misblamed.phaseOne .exact 9 ⟨[]⟩).map Run.result = .ok (.error (.notFullRank 4)) := by
    decide +kernel
  rcases map_eq_ok.mp hphase with ⟨run, hrun, hresult⟩
  rcases (hall misblamed 9 4 run (by decide) hrun hresult).combination with ⟨c, hc⟩
  have hvariable := hc 2 (by decide) (by decide)
  have hothers : ∑ i ∈ (Icc 1 misblamed.constraints).erase 4, c i * misblamed.values i 2 = 0 := by
    refine sum_eq_zero fun i hi => ?_
    have hi' : i ∈ Icc 1 3 := by
      have hcount : misblamed.constraints = 4 := rfl
      simp only [hcount, mem_erase, mem_Icc] at hi ⊢
      omega
    have hzero : ∀ i ∈ Icc 1 3, misblamed.values i 2 = 0 := by decide +kernel
    rw [hzero i hi', mul_zero]
  have hone : misblamed.values 4 2 = -1 := by decide +kernel
  rw [hothers, hone] at hvariable
  norm_num at hvariable

end ExactSimplex
