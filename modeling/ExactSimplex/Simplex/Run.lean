import ExactSimplex.Simplex.Event
import ExactSimplex.Tableau.Pivot

/-!
# Runs of a pivoting method

A pivoting method is a rule that looks at a tableau and a basis and either stops with a status or names
the row and the column of the next pivot.  A run repeats the rule within a step budget.  The result
carries the state in which the run ended and the events in order.

Main results:

- Theorem {lit}`runRule_of_stop`: a rule that stops ends the run in the state it looked at.
- Theorem {lit}`runRule_cases`: what one step of a run does.
- Theorem {lit}`takePivot_sizes`: a pivot keeps all sizes.
- Theorem {lit}`runRule_sizes`: a run keeps all sizes.
-/

namespace ExactSimplex

/-- The answer of a stage with the state it ended in and its events. -/
structure Run (α : Type) where
  result : α
  tableau : Tableau
  basis : Basis
  events : List Event
  deriving Repr

/-- The same run with events before its own. -/
def Run.after {α : Type} (events : List Event) (run : Run α) : Run α :=
  { run with events := events ++ run.events }

/-- The answers of the primal and the dual simplex method. -/
inductive SimplexStatus where
  | optimal
  | unbounded
  deriving Repr, DecidableEq

/-- A status as the outcome of a stage. -/
def SimplexStatus.outcome : SimplexStatus → Outcome
  | .optimal => .optimal
  | .unbounded => .unbounded

/-- What a pivoting rule decides. -/
inductive Choice where
  | stop (status : SimplexStatus)
  | pivot (column row : Nat)
  deriving Repr, DecidableEq

/-- A rule for the next pivot. -/
abbrev Rule := Tableau → Basis → Calc Choice

variable (A : Arithmetic)

/-- Pivots and lets the column enter the basis; also returns the leaving variable and the pivot
element. -/
def takePivot (T : Tableau) (B : Basis) (column row : Nat) :
    Calc (Tableau × Basis × Nat × Fraction) := do
  let leaving ← B.inRow row
  let element ← T.get row column
  let T' ← T.pivot A column row .all
  let B' ← B.enter row column
  pure (T', B', leaving, element)

/-- Repeats a rule from a numbered iteration on; at most `budget` optimality tests are made. -/
def runRule (stage : Stage) (rule : Rule) :
    (budget index : Nat) → Tableau → Basis → Calc (Run SimplexStatus)
  | 0, _, _, _ => .error .budgetSpent
  | budget + 1, index, T, B => do
      let snapshot := Event.iteration stage index T B
      match ← rule T B with
      | .stop status => pure ⟨status, T, B, [snapshot]⟩
      | .pivot column row => do
          let (T', B', leaving, element) ← takePivot A T B column row
          let rest ← runRule stage rule budget (index + 1) T' B'
          pure (rest.after [snapshot, .pivot stage column leaving element])

/-- A whole stage: its start, the iterations, and its end with the objective value of an optimum. -/
def runStage (stage : Stage) (rule : Rule) (budget : Nat) (T : Tableau) (B : Basis) :
    Calc (Run SimplexStatus) := do
  let run ← runRule A stage rule budget 0 T B
  let objective ← match run.result with
    | .optimal => some <$> run.tableau.objectiveValue A
    | .unbounded => pure none
  pure { run with
    events := .started stage :: run.events ++ [.finished stage run.result.outcome objective] }

/-! ## First facts -/

/-- A run whose rule stops at once reports one state and leaves it as it is. -/
theorem runRule_of_stop {stage : Stage} {rule : Rule} {T : Tableau} {B : Basis}
    {status : SimplexStatus} (h : rule T B = .ok (.stop status)) (budget index : Nat) :
    runRule A stage rule (budget + 1) index T B =
      .ok ⟨status, T, B, [.iteration stage index T B]⟩ := by
  simp [runRule, h, bind, Except.bind, pure, Except.pure]

/-- What a pivot reads and what it changes. -/
theorem takePivot_parts {T T' : Tableau} {B B' : Basis} {column row leaving : Nat}
    {element : Fraction} (h : takePivot A T B column row = .ok (T', B', leaving, element)) :
    B.inRow row = .ok leaving ∧ T.get row column = .ok element ∧
      T.pivot A column row .all = .ok T' ∧ B.enter row column = .ok B' := by
  obtain ⟨_, hleaving, h⟩ := Calc.bind_eq_ok.mp h
  obtain ⟨_, helement, h⟩ := Calc.bind_eq_ok.mp h
  obtain ⟨_, hpivot, h⟩ := Calc.bind_eq_ok.mp h
  obtain ⟨_, henter, h⟩ := Calc.bind_eq_ok.mp h
  cases Calc.pure_eq_ok.mp h
  exact ⟨hleaving, helement, hpivot, henter⟩

/-- A pivot keeps the sizes of the tableau and of the basis. -/
theorem takePivot_sizes {T T' : Tableau} {B B' : Basis} {column row leaving : Nat}
    {element : Fraction} (h : takePivot A T B column row = .ok (T', B', leaving, element)) :
    Tableau.SameSizes T T' ∧ B'.size = B.size := by
  obtain ⟨-, -, hpivot, henter⟩ := takePivot_parts A h
  exact ⟨Tableau.pivot_sizes A hpivot, Basis.size_enter henter⟩

/-- A run ends in the state in which the rule stops, or it takes the pivot of the rule and goes on. -/
theorem runRule_cases {stage : Stage} {rule : Rule} {budget index : Nat} {T : Tableau} {B : Basis}
    {run : Run SimplexStatus} (h : runRule A stage rule (budget + 1) index T B = .ok run) :
    (∃ status, rule T B = .ok (.stop status) ∧ run = ⟨status, T, B, [.iteration stage index T B]⟩) ∨
      ∃ column row T' B' leaving element rest, rule T B = .ok (.pivot column row) ∧
        takePivot A T B column row = .ok (T', B', leaving, element) ∧
        runRule A stage rule budget (index + 1) T' B' = .ok rest ∧
        run = rest.after [.iteration stage index T B, .pivot stage column leaving element] := by
  obtain ⟨choice, hchoice, h⟩ := Calc.bind_eq_ok.mp h
  cases choice with
  | stop status => exact .inl ⟨status, hchoice, (Calc.pure_eq_ok.mp h).symm⟩
  | pivot column row =>
      obtain ⟨⟨T', B', leaving, element⟩, hstep, h⟩ := Calc.bind_eq_ok.mp h
      obtain ⟨rest, hrest, h⟩ := Calc.bind_eq_ok.mp h
      exact .inr ⟨column, row, T', B', leaving, element, rest, hchoice, hstep, hrest,
        (Calc.pure_eq_ok.mp h).symm⟩

/-- A run keeps the sizes of the tableau and of the basis. -/
theorem runRule_sizes {stage : Stage} {rule : Rule} {budget index : Nat} {T : Tableau} {B : Basis}
    {run : Run SimplexStatus} (h : runRule A stage rule budget index T B = .ok run) :
    Tableau.SameSizes T run.tableau ∧ run.basis.size = B.size := by
  induction budget generalizing index T B run with
  | zero => cases h
  | succ budget ih =>
      rcases runRule_cases A h with ⟨status, -, rfl⟩ | ⟨_, _, _, _, _, _, rest, -, hstep, hrest, rfl⟩
      · exact ⟨Tableau.SameSizes.refl T, rfl⟩
      · have hpivot := takePivot_sizes A hstep
        have htail := ih hrest
        exact ⟨hpivot.1.trans htail.1, htail.2.trans hpivot.2⟩

end ExactSimplex
