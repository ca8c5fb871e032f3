import ExactSimplex.Simplex.Dual
import ExactSimplex.Simplex.PhaseOne
import ExactSimplex.Tableau.Canonical
import ExactSimplex.Tableau.Cut

/-!
# Cutting planes

The program is first solved without regard to integrality, from an identity in the tableau or else
after phase one.  As long as some basic value is not an integer, a cut is added from the first such row
and the dual method restores feasibility.

Main results:

- Theorem {lit}`Tableau.cutRounds_of_integral`: an integral tableau takes no cut.
-/

namespace ExactSimplex

/-- The answers of the cutting plane method. -/
inductive IntegerStatus where
  | optimal
  | unbounded
  | infeasible
  deriving Repr, DecidableEq

/-- An integer status as the outcome of a stage. -/
def IntegerStatus.outcome : IntegerStatus → Outcome
  | .optimal => .optimal
  | .unbounded => .unbounded
  | .infeasible => .infeasible

namespace Tableau

variable (A : Arithmetic)

/-- Cuts and dual runs until every basic value is an integer; `rounds` bounds their number, `budget`
the length of each dual run, and `round` counts the cuts made before. -/
def cutRounds (budget : Nat) :
    (rounds round : Nat) → Tableau → Basis → Calc (Run IntegerStatus)
  | 0, _, _, _ => .error .budgetSpent
  | rounds + 1, round, T, B => do
      match ← T.fractionalRow with
      | none => pure ⟨.optimal, T, B, []⟩
      | some source => do
          let (T', B') ← addCut A T B source
          let run ← dualSimplex A budget T' B'
          let events := .cut (round + 1) source :: run.events
          match run.result with
          | .unbounded => pure ⟨.infeasible, run.tableau, run.basis, events⟩
          | .optimal => do
              let rest ← cutRounds budget rounds (round + 1) run.tableau run.basis
              pure (rest.after events)

/-- The relaxed program and the cuts, from a feasible basis on. -/
def relaxAndCut (budget : Nat) (T : Tableau) (B : Basis) : Calc (Run IntegerStatus) := do
  let run ← primalSimplex A budget T B
  match run.result with
  | .unbounded => pure { run with result := .unbounded }
  | .optimal => do
      let rest ← cutRounds A budget budget 0 run.tableau run.basis
      pure (rest.after run.events)

/-- The stage without its frame: a starting basis, the relaxed program, the cuts. -/
def cutFromStart (budget : Nat) (T : Tableau) (B : Basis) :
    Calc (Run (Except SolveError IntegerStatus)) := do
  match ← startingBasis A T with
  | some found => do
      let run ← relaxAndCut A budget T found
      pure { run with result := .ok run.result }
  | none => do
      let feasible ← phaseOne A budget T B
      match feasible.result with
      | .error e => pure { feasible with result := .error e }
      | .ok .infeasible => pure { feasible with result := .ok .infeasible }
      | .ok .feasible => do
          let run ← relaxAndCut A budget feasible.tableau feasible.basis
          pure ({ run with result := Except.ok run.result }.after feasible.events)

/-- Solves a program over the integers. -/
def cuttingPlane (budget : Nat) (T : Tableau) (B : Basis) :
    Calc (Run (Except SolveError IntegerStatus)) := do
  let run ← cutFromStart A budget T B
  let events := Event.started .cuttingPlane :: run.events
  match run.result with
  | .error _ => pure { run with events := events }
  | .ok status => do
      let objective ← match status with
        | .optimal => some <$> run.tableau.objectiveValue A
        | _ => pure none
      pure { run with
        events := events ++ [.finished .cuttingPlane status.outcome objective] }

/-- Without a fractional row the rounds stop at once with an optimum. -/
theorem cutRounds_of_integral {T : Tableau} (B : Basis) (h : T.fractionalRow = .ok none)
    (budget rounds round : Nat) :
    cutRounds A budget (rounds + 1) round T B = .ok ⟨.optimal, T, B, []⟩ := by
  simp [cutRounds, h, bind, Except.bind, pure, Except.pure]

end Tableau
end ExactSimplex
