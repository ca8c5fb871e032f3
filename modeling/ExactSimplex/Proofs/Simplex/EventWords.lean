import ExactSimplex.Proofs.Simplex.Run
import ExactSimplex.Proofs.Simplex.Stages

/-!
# The words of events

The events of a stage follow each other in an order that a grammar describes: every stage is framed by its
start and its end, a pivot stands between any two iterations and nowhere else, the artificial variables are
swapped out row by row, and every cut is followed by one run of the dual method.  The number of cuts is the
number of constraints and of variables by which the tableau grows.  All this is a matter of the order of the
steps, whatever becomes of the values.

Main results:

- Theorem {lit}`runStage_word`: the events of the primal and of the dual method.
- Theorem {lit}`Tableau.phaseOne_word`: the events of phase one.
- Theorem {lit}`Tableau.cutRounds_word`: the events of the rounds of cuts.
- Theorem {lit}`Tableau.cuttingPlane_word`: the events of the cutting plane method.
-/

namespace ExactSimplex

open Calc

/-! ## The grammar -/

/-- Iterations of a stage from a numbered one on, with exactly one pivot between two that follow each other.
The last of them shows the tableau `U`. -/
inductive IterationWord (stage : Stage) (U : Tableau) : ℕ → List Event → Prop
  | last {index : ℕ} {C : Basis} : IterationWord stage U index [.iteration stage index U C]
  | pivot {index entering leaving : ℕ} {T : Tableau} {B : Basis} {element : Fraction}
      {rest : List Event} : IterationWord stage U (index + 1) rest →
      IterationWord stage U index
        (.iteration stage index T B :: .pivot stage entering leaving element :: rest)

/-- A stage of the primal or the dual method that ends with the tableau `U`: its start, its iterations from
number zero on, and its end. -/
inductive SimplexWord (A : Arithmetic) (stage : Stage) (U : Tableau) (status : SimplexStatus) :
    List Event → Prop
  | frame {iterations : List Event} {objective : Option Fraction} :
      IterationWord stage U 0 iterations → Reports A U (status = .optimal) objective →
      SimplexWord A stage U status
        (.started stage :: iterations ++ [.finished stage status.outcome objective])

/-- Swaps of artificial variables in strictly increasing rows from a row on. -/
inductive SwapWord : ℕ → List Event → Prop
  | nil {row : ℕ} : SwapWord row []
  | swap {row swapped artificial entering : ℕ} {rest : List Event} : row ≤ swapped →
      SwapWord (swapped + 1) rest →
      SwapWord row (.degeneracy swapped artificial entering :: rest)

/-- Phase one with the tableau `U` at its end: a stage of the primal method, and only if it leads to a
feasible basis the swaps and an objective value. -/
inductive PhaseOneWord (A : Arithmetic) (U : Tableau) : Feasibility → List Event → Prop
  | feasible {V : Tableau} {inner swaps : List Event} {z : Fraction} :
      SimplexWord A .primal V .optimal inner → SwapWord 1 swaps → U.objectiveValue A = .ok z →
      PhaseOneWord A U .feasible
        (.started .phaseOne :: inner ++ swaps ++ [.finished .phaseOne .feasible (some z)])
  | infeasible {V : Tableau} {status : SimplexStatus} {inner : List Event} :
      SimplexWord A .primal V status inner →
      PhaseOneWord A U .infeasible
        (.started .phaseOne :: inner ++ [.finished .phaseOne .infeasible none])

/-- The rounds after a number of rounds, with their status and the number of their cuts: cuts that are
numbered consecutively, each with one stage of the dual method, of which only the last may be unbounded. -/
inductive RoundWord (A : Arithmetic) : ℕ → IntegerStatus → ℕ → List Event → Prop
  | integral {round : ℕ} : RoundWord A round .optimal 0 []
  | infeasible {round source : ℕ} {U : Tableau} {dual : List Event} :
      SimplexWord A .dual U .unbounded dual →
      RoundWord A round .infeasible 1 (.cut (round + 1) source :: dual)
  | next {round source cuts : ℕ} {U : Tableau} {status : IntegerStatus} {dual rest : List Event} :
      SimplexWord A .dual U .optimal dual → RoundWord A (round + 1) status cuts rest →
      RoundWord A round status (cuts + 1) (.cut (round + 1) source :: dual ++ rest)

/-- The relaxed program, and the rounds unless it is unbounded. -/
inductive RelaxedWord (A : Arithmetic) : IntegerStatus → ℕ → List Event → Prop
  | unbounded {U : Tableau} {primal : List Event} : SimplexWord A .primal U .unbounded primal →
      RelaxedWord A .unbounded 0 primal
  | rounds {U : Tableau} {status : IntegerStatus} {cuts : ℕ} {primal rest : List Event} :
      SimplexWord A .primal U .optimal primal → RoundWord A 0 status cuts rest →
      RelaxedWord A status cuts (primal ++ rest)

/-- Cutting planes without their frame: phase one if no identity was found, then the relaxed program unless
phase one found no feasible point. -/
inductive FromStartWord (A : Arithmetic) : IntegerStatus → ℕ → List Event → Prop
  | found {status : IntegerStatus} {cuts : ℕ} {events : List Event} :
      RelaxedWord A status cuts events → FromStartWord A status cuts events
  | feasible {U : Tableau} {status : IntegerStatus} {cuts : ℕ} {first events : List Event} :
      PhaseOneWord A U .feasible first → RelaxedWord A status cuts events →
      FromStartWord A status cuts (first ++ events)
  | infeasible {U : Tableau} {first : List Event} : PhaseOneWord A U .infeasible first →
      FromStartWord A .infeasible 0 first

/-- Cutting planes that end with the tableau `U`. -/
inductive CuttingPlaneWord (A : Arithmetic) (U : Tableau) (status : IntegerStatus) (cuts : ℕ) :
    List Event → Prop
  | frame {events : List Event} {objective : Option Fraction} : FromStartWord A status cuts events →
      Reports A U (status = .optimal) objective →
      CuttingPlaneWord A U status cuts
        (.started .cuttingPlane :: events ++ [.finished .cuttingPlane status.outcome objective])

variable {A : Arithmetic} {stage : Stage} {T U : Tableau} {B : Basis} {budget : ℕ}

/-! ## Counting cuts -/

/-- The number of cuts among some events. -/
def cutsAmong (events : List Event) : ℕ := Record.cuts (events.map Event.record)

@[simp]
theorem cutsAmong_nil : cutsAmong [] = 0 :=
  rfl

/-- The cuts among two sequences are those of both. -/
@[simp]
theorem cutsAmong_append (first second : List Event) :
    cutsAmong (first ++ second) = cutsAmong first + cutsAmong second := by
  unfold cutsAmong
  rw [List.map_append, Record.cuts_append]

@[simp]
theorem cutsAmong_cut (round source : ℕ) (rest : List Event) :
    cutsAmong (.cut round source :: rest) = cutsAmong rest + 1 :=
  rfl

/-- Only cuts are counted. -/
@[simp]
theorem cutsAmong_started (stage : Stage) (rest : List Event) :
    cutsAmong (.started stage :: rest) = cutsAmong rest :=
  rfl

@[simp]
theorem cutsAmong_finished (stage : Stage) (outcome : Outcome) (objective : Option Fraction)
    (rest : List Event) : cutsAmong (.finished stage outcome objective :: rest) = cutsAmong rest :=
  rfl

/-- There is no cut among the iterations of a stage. -/
theorem IterationWord.cuts {index : ℕ} {events : List Event} (h : IterationWord stage U index events) :
    cutsAmong events = 0 := by
  induction h with
  | last => rfl
  | pivot _ ih => exact ih

/-- There is no cut in a stage of iterations. -/
theorem SimplexWord.cuts {status : SimplexStatus} {events : List Event}
    (h : SimplexWord A stage U status events) : cutsAmong events = 0 := by
  cases h with
  | frame hiterations _ => simp [hiterations.cuts]

/-- There is no cut where artificial variables are driven out. -/
theorem SwapWord.cuts {row : ℕ} {events : List Event} (h : SwapWord row events) :
    cutsAmong events = 0 := by
  induction h with
  | nil => rfl
  | swap _ _ ih => exact ih

/-- There is no cut in phase one. -/
theorem PhaseOneWord.cuts {feasibility : Feasibility} {events : List Event}
    (h : PhaseOneWord A U feasibility events) : cutsAmong events = 0 := by
  cases h with
  | feasible hinner hswaps _ => simp [hinner.cuts, hswaps.cuts]
  | infeasible hinner => simp [hinner.cuts]

/-- The rounds have as many cuts as they count. -/
theorem RoundWord.cuts {round cuts : ℕ} {status : IntegerStatus} {events : List Event}
    (h : RoundWord A round status cuts events) : cutsAmong events = cuts := by
  induction h with
  | integral => rfl
  | infeasible hdual => simp [hdual.cuts]
  | next hdual _ ih => simp [hdual.cuts, ih]

theorem RelaxedWord.cuts {status : IntegerStatus} {cuts : ℕ} {events : List Event}
    (h : RelaxedWord A status cuts events) : cutsAmong events = cuts := by
  cases h with
  | unbounded hprimal => exact hprimal.cuts
  | rounds hprimal hrest => simp [hprimal.cuts, hrest.cuts]

theorem CuttingPlaneWord.cuts {status : IntegerStatus} {cuts : ℕ} {events : List Event}
    (h : CuttingPlaneWord A U status cuts events) : cutsAmong events = cuts := by
  cases h with
  | frame hstart _ =>
      cases hstart with
      | found hrelaxed => simp [hrelaxed.cuts]
      | feasible hfirst hrelaxed => simp [hfirst.cuts, hrelaxed.cuts]
      | infeasible hfirst => simp [hfirst.cuts]

/-- Rounds end with an optimum or without a point. -/
theorem RoundWord.ne_unbounded {round cuts : ℕ} {status : IntegerStatus} {events : List Event}
    (h : RoundWord A round status cuts events) : status ≠ .unbounded := by
  induction h with
  | integral => exact nofun
  | infeasible _ => exact nofun
  | next _ _ ih => exact ih

/-! ## Simplex stages -/

/-- The events of a run are its iterations, by induction on the budget. -/
theorem runRule_word {rule : Rule} {index : ℕ} {run : Run SimplexStatus}
    (h : runRule A stage rule budget index T B = .ok run) :
    IterationWord stage run.tableau index run.events := by
  induction budget generalizing index T B run with
  | zero => cases h
  | succ budget ih =>
      rcases runRule_cases A h with ⟨status, -, rfl⟩ | ⟨_, _, _, _, _, _, rest, -, -, hrest, rfl⟩
      · exact .last
      · exact .pivot (ih hrest)

/-- The events of a stage are a word of it, with the result of the run. -/
theorem runStage_word {rule : Rule} {run : Run SimplexStatus}
    (h : runStage A stage rule budget T B = .ok run) :
    SimplexWord A stage run.tableau run.result run.events := by
  rcases runStage_frame h with ⟨inner, objective, hinner, hreports, rfl⟩
  exact .frame (runRule_word hinner) hreports

/-! ## Phase one -/

/-- Rows that are left may be left out at the beginning. -/
theorem SwapWord.mono {row row' : ℕ} {events : List Event} (h : SwapWord row events)
    (hle : row' ≤ row) : SwapWord row' events := by
  cases h with
  | nil => exact .nil
  | swap hswapped hrest => exact .swap (hle.trans hswapped) hrest

/-- No state is reported where artificial variables are driven out. -/
theorem SwapWord.snapshots {row : ℕ} {events : List Event} (h : SwapWord row events) :
    snapshots events = [] := by
  induction h with
  | nil => rfl
  | swap _ _ ih => exact ih

namespace Tableau

/-- Driving out goes through the rows in order, by induction on their number. -/
theorem driveOut_word {columns row count : ℕ} {d d' : Drive} {dependent : Option ℕ}
    (h : driveOut A columns row count d = .ok (d', dependent)) :
    ∃ swaps, SwapWord row swaps ∧ d'.events = d.events ++ swaps := by
  induction count generalizing row d with
  | zero =>
      cases pure_eq_ok.mp h
      exact ⟨[], .nil, by simp⟩
  | succ count ih =>
      rcases driveOut_cases h with hrest | ⟨rfl, -⟩ | ⟨basic, entered, V, C, -, -, hrest⟩
      · rcases ih hrest with ⟨swaps, hswaps, hevents⟩
        exact ⟨swaps, hswaps.mono (Nat.le_succ row), hevents⟩
      · exact ⟨[], .nil, by simp⟩
      · rcases ih hrest with ⟨swaps, hswaps, hevents⟩
        refine ⟨.degeneracy row basic entered :: swaps, .swap (Nat.le_refl row) hswaps, ?_⟩
        rw [hevents, List.append_assoc, List.singleton_append]

/-- Driving out reports no iteration. -/
theorem snapshots_driveOut {columns row count : ℕ} {d d' : Drive} {dependent : Option ℕ}
    (h : driveOut A columns row count d = .ok (d', dependent)) :
    snapshots d'.events = snapshots d.events := by
  rcases driveOut_word h with ⟨swaps, hswaps, hevents⟩
  rw [hevents, snapshots_append, hswaps.snapshots, List.append_nil]

/-- The events of phase one are a word of it, with its verdict. -/
theorem phaseOne_word {run : Run (Except SolveError Feasibility)} {feasibility : Feasibility}
    (h : phaseOne A budget T B = .ok run) (hresult : run.result = .ok feasibility) :
    PhaseOneWord A run.tableau feasibility run.events := by
  rcases phaseOne_parts h with ⟨_, _, inner, _, -, -, hinner, -, hend⟩
  have hprimal := runStage_word hinner
  cases hend with
  | infeasible _ =>
      cases hresult
      exact .infeasible hprimal
  | dependent _ _ _ => cases hresult
  | feasible hoptimal _ hdrive _ _ hobjective =>
      cases hresult
      rcases driveOut_word hdrive with ⟨swaps, hswaps, hevents⟩
      rw [hoptimal] at hprimal
      rw [hevents]
      exact .feasible hprimal hswaps hobjective

/-! ## Cutting planes -/

/-- The second tableau has a number of constraints and of variables more than the first. -/
structure GrownBy (T U : Tableau) (cuts : ℕ) : Prop where
  constraints : U.constraints = T.constraints + cuts
  columns : U.columns = T.columns + cuts

/-- A tableau of the same sizes has grown by nothing. -/
theorem SameSizes.grownBy (h : SameSizes T U) : GrownBy T U 0 :=
  ⟨h.constraints, h.columns⟩

/-- What has grown twice has grown by both. -/
theorem GrownBy.trans {V : Tableau} {cuts cuts' : ℕ} (h : GrownBy T U cuts) (h' : GrownBy U V cuts') :
    GrownBy T V (cuts + cuts') := by
  refine ⟨?_, ?_⟩
  · rw [h'.constraints, h.constraints, Nat.add_assoc]
  · rw [h'.columns, h.columns, Nat.add_assoc]

/-- Every cut is followed by a stage of the dual method and lets the tableau grow, by induction on the
number of rounds that are allowed. -/
theorem cutRounds_word {rounds round : ℕ} {run : Run IntegerStatus}
    (h : cutRounds A budget rounds round T B = .ok run) :
    ∃ cuts, RoundWord A round run.result cuts run.events ∧ GrownBy T run.tableau cuts := by
  induction rounds generalizing round T B run with
  | zero => cases h
  | succ rounds ih =>
      rcases cutRounds_cases h with ⟨-, rfl⟩ | ⟨source, s, inner, -, hcut, hinner, hcases⟩
      · exact ⟨0, .integral, rfl, rfl⟩
      · have hdual := runStage_word hinner
        have hsizes := addCut_sizes A hcut
        -- The cut adds one row and one column, and the stage after it nothing.
        have hgrown : GrownBy T inner.tableau 1 :=
          GrownBy.trans ⟨hsizes.2.1, hsizes.1⟩ (runStage_sizes hinner).grownBy
        rcases hcases with ⟨hstatus, rfl⟩ | ⟨rest, hstatus, hrest, rfl⟩ <;> rw [hstatus] at hdual
        · exact ⟨1, .infeasible hdual, hgrown⟩
        · rcases ih hrest with ⟨cuts, hword, hrestGrown⟩
          have hall := hgrown.trans hrestGrown
          rw [Nat.add_comm] at hall
          exact ⟨cuts + 1, .next hdual hword, hall⟩

/-- The events of the relaxed program and its rounds are a word of them, with the cuts that were made. -/
theorem relaxAndCut_word {run : Run IntegerStatus} (h : relaxAndCut A budget T B = .ok run) :
    ∃ cuts, RelaxedWord A run.result cuts run.events ∧ GrownBy T run.tableau cuts := by
  rcases relaxAndCut_cases h with ⟨inner, hinner, hcases⟩
  have hprimal := runStage_word hinner
  have hsizes := (runStage_sizes hinner).grownBy
  rcases hcases with ⟨hstatus, rfl⟩ | ⟨rest, hstatus, hrest, rfl⟩ <;> rw [hstatus] at hprimal
  · exact ⟨0, .unbounded hprimal, hsizes⟩
  · rcases cutRounds_word hrest with ⟨cuts, hword, hgrown⟩
    have hall := hsizes.trans hgrown
    rw [Nat.zero_add] at hall
    exact ⟨cuts, .rounds hprimal hword, hall⟩

/-- The same from the search for a start on. -/
theorem cutFromStart_word {run : Run (Except SolveError IntegerStatus)} {status : IntegerStatus}
    (h : cutFromStart A budget T B = .ok run) (hresult : run.result = .ok status) :
    ∃ cuts, FromStartWord A status cuts run.events ∧ GrownBy T run.tableau cuts := by
  rcases cutFromStart_cases h with ⟨found, inner, -, hinner, rfl⟩ |
    ⟨first, -, hfirst, ⟨e, -, rfl⟩ | ⟨hinfeasible, rfl⟩ | ⟨inner, hfeasible, hinner, rfl⟩⟩
  · cases hresult
    rcases relaxAndCut_word hinner with ⟨cuts, hword, hgrown⟩
    exact ⟨cuts, .found hword, hgrown⟩
  · cases hresult
  · cases hresult
    exact ⟨0, .infeasible (phaseOne_word hfirst hinfeasible), (phaseOne_sizes hfirst).grownBy⟩
  · cases hresult
    rcases relaxAndCut_word hinner with ⟨cuts, hword, hgrown⟩
    have hall := (phaseOne_sizes hfirst).grownBy.trans hgrown
    rw [Nat.zero_add] at hall
    exact ⟨cuts, .feasible (phaseOne_word hfirst hfeasible) hword, hall⟩

/-- The same for the whole method. -/
theorem cuttingPlane_word {run : Run (Except SolveError IntegerStatus)} {status : IntegerStatus}
    (h : cuttingPlane A budget T B = .ok run) (hresult : run.result = .ok status) :
    ∃ cuts, CuttingPlaneWord A run.tableau status cuts run.events ∧ GrownBy T run.tableau cuts := by
  rcases cuttingPlane_frame h with
    ⟨inner, hinner, ⟨e, herror, rfl⟩ | ⟨status', objective, hinnerResult, hreports, rfl⟩⟩
  · cases herror.symm.trans hresult
  · cases hinnerResult.symm.trans hresult
    rcases cutFromStart_word hinner hinnerResult with ⟨cuts, hword, hgrown⟩
    exact ⟨cuts, .frame hword hreports, hgrown⟩

end Tableau
end ExactSimplex
