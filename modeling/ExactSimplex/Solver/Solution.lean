import ExactSimplex.Tableau.Basic

/-!
# Solutions

The answer of a solve: a status, and for an optimum the objective value, the basis and the values of
the variables of the program.

Main results:

- Theorem {lit}`Solution.isOptimal_optimal`: what is read off an optimal tableau is optimal.
-/

namespace ExactSimplex

/-- How a solve ended. -/
inductive Status where
  | optimal
  | infeasible
  | unbounded
  deriving Repr, DecidableEq

/-- The name of a status in documents. -/
def Status.name : Status → String
  | .optimal => "Optimal"
  | .infeasible => "Infeasible"
  | .unbounded => "Unbounded"

/-- The answer of a solve. -/
structure Solution where
  status : Status
  /-- The optimal objective value. -/
  objectiveValue : Option Fraction
  /-- The basis in which the solve ended; empty if there is no feasible point. -/
  basis : Basis
  /-- The values of the variables, of an optimum only. -/
  values : List Fraction
  /-- Number of cuts added. -/
  cuts : Nat
  deriving Repr, DecidableEq

namespace Solution

/-- The optimum that a solved tableau shows for its first `columns` variables. -/
def optimal (A : Arithmetic) (T : Tableau) (B : Basis) (columns cuts : Nat) : Calc Solution := do
  let values ← T.basicSolution B
  let objective ← T.objectiveValue A
  pure ⟨.optimal, some objective, B, values.take columns, cuts⟩

/-- No point satisfies the constraints. -/
def infeasible (cuts : Nat) : Solution := ⟨.infeasible, none, ⟨[]⟩, [], cuts⟩

/-- The objective has no lower bound. -/
def unbounded (B : Basis) : Solution := ⟨.unbounded, none, B, [], 0⟩

/-- Whether an optimum was found. -/
def isOptimal (s : Solution) : Bool := s.status == .optimal

/-- Equality of optional values. -/
def sameObjective (A : Arithmetic) : Option Fraction → Option Fraction → Calc Bool
  | none, none => pure true
  | some a, some b => Fraction.eq A a b
  | _, _ => pure false

/-- Equality of two solutions, fractions being compared by value. -/
def same (A : Arithmetic) (s t : Solution) : Calc Bool := do
  if s.status = t.status ∧ s.basis = t.basis ∧ s.cuts = t.cuts then
    if ← sameObjective A s.objectiveValue t.objectiveValue then
      Tableau.sameEntries A s.values t.values
    else pure false
  else pure false

/-- What is read off as an optimum has the status of one. -/
theorem isOptimal_optimal {A : Arithmetic} {T : Tableau} {B : Basis} {columns cuts : Nat}
    {s : Solution} (h : optimal A T B columns cuts = .ok s) : s.isOptimal = true := by
  obtain ⟨values, -, h⟩ := Calc.bind_eq_ok.mp h
  obtain ⟨objective, -, h⟩ := Calc.bind_eq_ok.mp h
  cases Calc.pure_eq_ok.mp h
  rfl

end Solution
end ExactSimplex
