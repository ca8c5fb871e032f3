import ExactSimplex.Tableau.Basic

/-!
# Events of a solve

A method reports what it does as a list of events, in order; nothing that it decides depends on them.
A record is an event without the snapshot of the tableau and the basis.

Main results:

- Theorem {lit}`Record.pivots_append` and {lit}`Record.cuts_append`: the summaries of two stretches of
  a solve are put together like the stretches.
-/

namespace ExactSimplex

/-- The methods and stages that report events. -/
inductive Stage where
  | primal
  | dual
  | phaseOne
  | cuttingPlane
  deriving Repr, DecidableEq

/-- The name of a stage in reports. -/
def Stage.name : Stage → String
  | .primal => "simplex"
  | .dual => "dual simplex"
  | .phaseOne => "phase one"
  | .cuttingPlane => "cutting plane"

/-- How a stage ended. -/
inductive Outcome where
  | optimal
  | unbounded
  | feasible
  | infeasible
  deriving Repr, DecidableEq

/-- What a method did. -/
inductive Event where
  | started (stage : Stage)
  /-- The state before an optimality test. -/
  | iteration (stage : Stage) (index : Nat) (tableau : Tableau) (basis : Basis)
  | pivot (stage : Stage) (entering leaving : Nat) (element : Fraction)
  /-- An artificial variable left basic at zero level was swapped out. -/
  | degeneracy (row artificial entering : Nat)
  | cut (round sourceRow : Nat)
  | finished (stage : Stage) (outcome : Outcome) (objective : Option Fraction)
  deriving Repr, DecidableEq

/-- An event without its snapshot. -/
inductive Record where
  | started (stage : Stage)
  | iteration (stage : Stage) (index : Nat)
  | pivot (stage : Stage) (entering leaving : Nat) (element : Fraction)
  | degeneracy (row artificial entering : Nat)
  | cut (round sourceRow : Nat)
  | finished (stage : Stage) (outcome : Outcome) (objective : Option Fraction)
  deriving Repr, DecidableEq

/-- Drops the snapshot of an event. -/
def Event.record : Event → Record
  | .started stage => .started stage
  | .iteration stage index _ _ => .iteration stage index
  | .pivot stage entering leaving element => .pivot stage entering leaving element
  | .degeneracy row artificial entering => .degeneracy row artificial entering
  | .cut round sourceRow => .cut round sourceRow
  | .finished stage outcome objective => .finished stage outcome objective

namespace Record

/-- The stage, entering and leaving column of every pivot. -/
def pivots : List Record → List (Stage × Nat × Nat)
  | [] => []
  | .pivot stage entering leaving _ :: rest => (stage, entering, leaving) :: pivots rest
  | _ :: rest => pivots rest

/-- The number of cuts. -/
def cuts : List Record → Nat
  | [] => 0
  | .cut _ _ :: rest => cuts rest + 1
  | _ :: rest => cuts rest

/-- The pivots of a sequence are those of its parts, one after the other. -/
theorem pivots_append (first second : List Record) :
    pivots (first ++ second) = pivots first ++ pivots second := by
  induction first with
  | nil => rfl
  | cons record rest ih => cases record <;> simp [pivots, ih]

/-- The cuts of a sequence are those of its parts together. -/
theorem cuts_append (first second : List Record) :
    cuts (first ++ second) = cuts first + cuts second := by
  induction first with
  | nil => simp [cuts]
  | cons record rest ih => cases record <;> simp [cuts, ih, Nat.add_right_comm]

end Record
end ExactSimplex
