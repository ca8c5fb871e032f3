import ExactSimplex.Proofs.Tableau.LeastBasis
import ExactSimplex.Solver.Solve

/-!
# Starting with and without a basis

The primal and the dual method need a basis to start from.  Without a given one they search the tableau for it,
and the search agrees with the test that a given basis has to pass: it fails only where every given basis
would have been refused.

Main results:

- Theorem {lit}`Solver.failsWith_iff`: these methods fail only at their start.
- Theorem {lit}`Solver.solve_start`: the search finds the least basis that is accepted, and no start is found
  exactly if none could have been given.
-/

namespace ExactSimplex

open Calc Fraction

namespace Solver

variable {A : Arithmetic} {T : Tableau} {S : Solver} {budget : ℕ}

/-- The solve ends with the given failure. -/
def FailsWith (A : Arithmetic) (budget : ℕ) (S : Solver) (T : Tableau) (e : SolveError) : Prop :=
  ∃ solved, solve A budget S T = .ok solved ∧ solved.result = .error e

/-- The methods that start from a basis fail only if there is none to start from. -/
theorem failsWith_iff (hmethod : S.method = .simplex ∨ S.method = .dualSimplex) {e : SolveError} :
    FailsWith A budget S T e ↔ startingBasis A S T = .ok (.error e) := by
  constructor
  · rintro ⟨solved, hsolve, hresult⟩
    unfold solve at hsolve
    rcases hmethod with hmethod | hmethod
    all_goals
      rw [hmethod] at hsolve
      rcases bind_eq_ok.mp hsolve with ⟨start, hstart, hsolve⟩
      cases start with
      | error e' =>
          cases pure_eq_ok.mp hsolve
          cases hresult
          exact hstart
      | ok B =>
          -- A run from a basis ends with an answer.
          rcases bind_eq_ok.mp hsolve with ⟨run, -, hsolve⟩
          rcases bind_eq_ok.mp hsolve with ⟨solution, -, hsolve⟩
          cases pure_eq_ok.mp hsolve
          cases hresult
  · intro hstart
    exact ⟨_, solve_of_no_start A hmethod hstart budget, rfl⟩

/-- Without a given basis there is no start exactly if the search finds none. -/
theorem startingBasis_none_iff {method : Method} :
    startingBasis A ⟨method, none⟩ T = .ok (.error .noStartingBasis) ↔ T.startingBasis A = .ok none := by
  unfold startingBasis
  dsimp only
  rcases T.startingBasis A with fault | _ | B <;> simp [bind, Except.bind, pure, Except.pure]

/-- A given basis is refused exactly for its defect. -/
theorem startingBasis_some_iff {method : Method} {B : Basis} {defect : BasisDefect} :
    startingBasis A ⟨method, some B⟩ T = .ok (.error (.invalidBasis defect)) ↔
      T.basisDefect A B = .ok (some defect) := by
  unfold startingBasis
  dsimp only
  rcases T.basisDefect A B with fault | _ | found <;> simp [bind, Except.bind, pure, Except.pure]

/-- What is known of a start from a basis: the search finds the least basis that is accepted or, if it finds
none, every given one has a defect, and a method fails accordingly. -/
structure StartsLeast (A : Arithmetic) (T : Tableau) : Prop where
  search : ∃ found, T.startingBasis A = .ok found ∧ (∀ B, found = some B → T.LeastBasis A B) ∧
    (found = none → ∀ B, ∃ defect, T.basisDefect A B = .ok (some defect))
  refused : ∀ method, method = .simplex ∨ method = .dualSimplex → ∀ budget B defect,
    FailsWith A budget ⟨method, some B⟩ T (.invalidBasis defect) ↔ T.basisDefect A B = .ok (some defect)
  missing : ∀ method, method = .simplex ∨ method = .dualSimplex → ∀ budget,
    FailsWith A budget ⟨method, none⟩ T .noStartingBasis ↔
      ∀ B, ∃ defect, FailsWith A budget ⟨method, some B⟩ T (.invalidBasis defect)

/-- In every arithmetic the search for an identity yields the least basis that is accepted, and it yields none
only if every basis is refused.  So a method that starts from a basis, and is given none, finds no start exactly
if none could have been given. -/
theorem solve_start (hA : A.holds 1 = true) (hT : T.Shaped) (hentries : ∀ a ∈ T.entries, Built A a) :
    StartsLeast A T := by
  have hstores := T.stores_cells hT fun a ha => (hentries a ha).proper hA
  rcases hstores.exists_least_basis hA with ⟨found, hfound, hleast, hnone⟩
  have hrefused : ∀ method, method = .simplex ∨ method = .dualSimplex → ∀ budget B defect,
      FailsWith A budget ⟨method, some B⟩ T (.invalidBasis defect) ↔
        T.basisDefect A B = .ok (some defect) :=
    fun method hmethod budget B defect => (failsWith_iff hmethod).trans startingBasis_some_iff
  refine ⟨⟨found, hfound, hleast, hnone⟩, hrefused, fun method hmethod budget => ?_⟩
  rw [failsWith_iff hmethod, startingBasis_none_iff, hfound, Except.ok.injEq]
  constructor
  · intro hmissing B
    rcases hnone hmissing B with ⟨defect, hdefect⟩
    exact ⟨defect, (hrefused method hmethod budget B defect).mpr hdefect⟩
  · intro hall
    cases hcase : found with
    | none => rfl
    | some B =>
        -- The basis that is found would have been accepted.
        rcases hall B with ⟨defect, hdefect⟩
        have haccepted := (hleast B hcase).accepted
        rw [(hrefused method hmethod budget B defect).mp hdefect] at haccepted
        cases haccepted

/-- Two rows with two unit vectors each, the ones of the second row around those of the first. -/
def rivals : Tableau where
  columns := 5
  constraints := 2
  entries := #[⟨0, 1⟩, ⟨0, 1⟩, ⟨0, 1⟩, ⟨0, 1⟩, ⟨3, 1⟩, ⟨0, 1⟩,
    ⟨4, 1⟩, ⟨0, 1⟩, ⟨1, 1⟩, ⟨1, 1⟩, ⟨1, 1⟩, ⟨0, 1⟩,
    ⟨5, 1⟩, ⟨1, 1⟩, ⟨0, 1⟩, ⟨0, 1⟩, ⟨1, 1⟩, ⟨1, 1⟩]

/-- A unit vector among the constraints whose cost was not priced out. -/
def unpriced : Tableau where
  columns := 1
  constraints := 1
  entries := #[⟨0, 1⟩, ⟨2, 1⟩, ⟨4, 1⟩, ⟨1, 1⟩]

/-- Of the rival bases the least is found, and the dual method finds no start where none can be given. -/
theorem solve_start_rivals :
    (rivals.startingBasis (.wrapping 32) = .ok (some ⟨[2, 1]⟩) ∧
      rivals.basisDefect (.wrapping 32) ⟨[3, 5]⟩ = .ok none ∧
        rivals.LeastBasis (.wrapping 32) ⟨[2, 1]⟩) ∧
    FailsWith (.wrapping 32) 0 ⟨.dualSimplex, none⟩ unpriced .noStartingBasis ∧
      ∀ B, ∃ defect, FailsWith (.wrapping 32) 0 ⟨.dualSimplex, some B⟩ unpriced (.invalidBasis defect) := by
  have hrivals : StartsLeast (.wrapping 32) rivals :=
    solve_start (by decide) (by decide) (built_of_reduced (by decide +kernel))
  have hunpriced : StartsLeast (.wrapping 32) unpriced :=
    solve_start (by decide) (by decide) (built_of_reduced (by decide +kernel))
  have hfound : rivals.startingBasis (.wrapping 32) = .ok (some ⟨[2, 1]⟩) := by decide +kernel
  have hfails : FailsWith (.wrapping 32) 0 ⟨.dualSimplex, none⟩ unpriced .noStartingBasis :=
    (failsWith_iff (Or.inr rfl)).mpr (startingBasis_none_iff.mpr (by decide +kernel))
  refine ⟨⟨hfound, by decide +kernel, ?_⟩, hfails, ?_⟩
  · rcases hrivals.search with ⟨found, hsearch, hleast, -⟩
    rw [hfound] at hsearch
    exact hleast _ (Except.ok.inj hsearch).symm
  · exact (hunpriced.missing .dualSimplex (Or.inr rfl) 0).mp hfails

end Solver
end ExactSimplex
