import ExactSimplex.Proofs.Solver.SafeSolve

/-!
# The states that a solve goes through

A solve need not return, because the primal and the dual method may go round in circles once values have
wrapped.  What it passes on its way is therefore described without a budget: the states at the heads of
its loops, and the calls of the pivot operation.  At every head the basis is canonical, and every pivot is
on a nonzero cell.

Main results:

- Theorem {lit}`Solver.Visits.soundState`: every state at the head of a loop is sound.
- Theorem {lit}`Solver.Pivots.isZero_eq_false`: every pivot is on a nonzero cell.
-/

namespace ExactSimplex

open Calc Fraction

/-- The loops of a solve. -/
inductive Loop where
  /-- The primal method on the artificial program. -/
  | artificial
  /-- The primal method on the program itself. -/
  | primal
  | dual
  deriving DecidableEq

/-- The rule that a loop repeats. -/
def Loop.rule (A : Arithmetic) : Loop → Rule
  | .artificial => Tableau.primalRule A
  | .primal => Tableau.primalRule A
  | .dual => Tableau.dualRule A

namespace Solver

variable (A : Arithmetic) (S : Solver) (T : Tableau)

/-- The method begins with phase one, or falls back on it. -/
def RunsPhaseOne : Prop :=
  S.method = .twoPhase ∨ (S.method = .cuttingPlane ∧ T.startingBasis A = .ok none)

/-- The states at the heads of the loops of a solve, where a rule is about to be asked. -/
inductive Visits : Loop → State → Prop
  | simplex {B : Basis} : S.method = .simplex → S.startingBasis A T = .ok (.ok B) →
      Visits .primal (T, B)
  | dualSimplex {B : Basis} : S.method = .dualSimplex → S.startingBasis A T = .ok (.ok B) →
      Visits .dual (T, B)
  | artificial {start priced : Tableau} : S.RunsPhaseOne A T → T.artificialTableau A = .ok start →
      Tableau.priceOut A (fun row => pure (T.columns + row)) 1 T.constraints start = .ok priced →
      Visits .artificial (priced, T.artificialBasis)
  | feasible {budget : ℕ} {run : Run (Except SolveError Feasibility)} : S.RunsPhaseOne A T →
      T.phaseOne A budget ⟨[]⟩ = .ok run → run.result = .ok .feasible →
      Visits .primal (run.tableau, run.basis)
  | found {B : Basis} : S.method = .cuttingPlane → T.startingBasis A = .ok (some B) →
      Visits .primal (T, B)
  | step {loop : Loop} {s s' : State} : Visits loop s → PivotStep A (loop.rule A) s s' →
      Visits loop s'
  /-- After a loop on the program itself has found an optimum, a cut leads to the dual method. -/
  | cut {loop : Loop} {s s' : State} {source : ℕ} : S.method = .cuttingPlane → loop ≠ .artificial →
      Visits loop s → loop.rule A s.1 s.2 = .ok (.stop .optimal) →
      s.1.fractionalRow = .ok (some source) → Tableau.addCut A s.1 s.2 source = .ok s' →
      Visits .dual s'

/-- The primal method stops with an optimum of the artificial program, and it is zero. -/
def SolvesArtificial (s : State) : Prop :=
  Tableau.primalRule A s.1 s.2 = .ok (.stop .optimal) ∧
    ∃ residual, s.1.objectiveValue A = .ok residual ∧ residual.isZero = true

/-- The calls of the pivot operation in a solve: the tableau, the column and the row. -/
inductive Pivots : Tableau → ℕ → ℕ → Prop
  | loop {loop : Loop} {s : State} {h t : ℕ} : S.Visits A T loop s →
      loop.rule A s.1 s.2 = .ok (.pivot h t) → Pivots s.1 h t
  /-- Pricing out the artificial variables, of which `done` are through. -/
  | price {start U : Tableau} {done : ℕ} : S.RunsPhaseOne A T → T.artificialTableau A = .ok start →
      done < T.constraints →
      Tableau.priceOut A (fun row => pure (T.columns + row)) 1 done start = .ok U →
      Pivots U (T.columns + (done + 1)) (done + 1)
  /-- Driving out the artificial variables, with `done` rows through. -/
  | drive {s : State} {events : List Event} {d : Tableau.Drive} {done basic h : ℕ} :
      S.Visits A T .artificial s → SolvesArtificial A s → done < T.constraints →
      Tableau.driveOut A T.columns 1 done ⟨s.1, s.2, events⟩ = .ok (d, none) →
      d.basis.inRow (done + 1) = .ok basic → T.columns < basic →
      firstIndex (fun column => do
        let entry ← d.tableau.get (done + 1) column
        pure !entry.isZero) 1 T.columns = .ok (some h) →
      Pivots d.tableau h (done + 1)
  /-- Pricing out the basic variables after the solved rows were copied back. -/
  | reprice {s : State} {events : List Event} {d : Tableau.Drive} {copied U : Tableau} {done h : ℕ} :
      S.Visits A T .artificial s → SolvesArtificial A s →
      Tableau.driveOut A T.columns 1 T.constraints ⟨s.1, s.2, events⟩ = .ok (d, none) →
      Tableau.copyRows d.tableau 1 T.constraints T = .ok copied → done < T.constraints →
      Tableau.priceOut A d.basis.inRow 1 done copied = .ok U →
      d.basis.inRow (done + 1) = .ok h → Pivots U h (done + 1)

variable {A S T} {m n : ℕ} {E : Cells} {loop : Loop} {s : State}

/-- The rule of every loop is sound. -/
theorem soundRule_loop (hA : A.holds 1 = true) (loop : Loop) : SoundRule A (loop.rule A) := by
  cases loop with
  | artificial => exact soundRule_primalRule hA
  | primal => exact soundRule_primalRule hA
  | dual => exact soundRule_dualRule hA

/-- Every state at the head of a loop is sound, by induction on the way to it; only the artificial program
has sizes that are needed later. -/
theorem Visits.soundState (hA : A.holds 1 = true) (hT : T.Stores A m n E)
    (hs : S.Visits A T loop s) :
    ∃ m' n', SoundState A m' n' s ∧ (loop = .artificial → m' = m ∧ n' = n + m) := by
  induction hs with
  | simplex _ hstart =>
      have hstate := (hT.safe_solverStart hA S).of_eq_ok hstart
      exact ⟨m, n, hstate _ rfl, fun h => by cases h⟩
  | dualSimplex _ hstart =>
      have hstate := (hT.safe_solverStart hA S).of_eq_ok hstart
      exact ⟨m, n, hstate _ rfl, fun h => by cases h⟩
  | artificial _ hstart hpriced =>
      exact ⟨m, n + m, (hT.safe_artificialStart hA hstart).of_eq_ok hpriced, fun _ => ⟨rfl, rfl⟩⟩
  | feasible _ hrun hresult =>
      have hstate := (hT.safe_phaseOne hA _ _).of_eq_ok hrun
      exact ⟨m, n, hstate hresult, fun h => by cases h⟩
  | found _ hfound =>
      rcases (hT.safe_startingBasis hA).of_eq_ok hfound _ rfl with ⟨hB, hcanonical⟩
      exact ⟨m, n, hT.soundState hB hcanonical, fun h => by cases h⟩
  | step _ hstep ih =>
      rcases ih with ⟨m', n', hs, hsizes⟩
      exact ⟨m', n', (soundRule_loop hA _).soundState_of_step hA hs hstep, hsizes⟩
  | cut _ _ _ _ hsource hcut ih =>
      rcases ih with ⟨m', n', hs, -⟩
      have hrow := (hs.safe_fractionalRow.of_eq_ok hsource _ rfl).2
      exact ⟨m' + 1, n' + 1, (hs.safe_addCut hA hrow).of_eq_ok hcut, fun h => by cases h⟩

/-- The artificial program has a variable more for every constraint row. -/
theorem Visits.soundState_artificial (hA : A.holds 1 = true) (hT : T.Stores A m n E)
    (hs : S.Visits A T .artificial s) : SoundState A m (n + m) s := by
  rcases hs.soundState hA hT with ⟨m', n', hsound, hsizes⟩
  rcases hsizes rfl with ⟨rfl, rfl⟩
  exact hsound

/-- The state after the artificial variables were driven out of the first rows. -/
theorem Visits.soundState_driven (hA : A.holds 1 = true) (hT : T.Stores A m n E)
    (hs : S.Visits A T .artificial s) {events : List Event} {d : Tableau.Drive} {count : ℕ}
    (hdrive : Tableau.driveOut A T.columns 1 count ⟨s.1, s.2, events⟩ = .ok (d, none))
    (hcount : count ≤ m) :
    SoundState A m (n + m) (d.tableau, d.basis) ∧ ∀ i, 1 ≤ i → i ≤ count → d.basis.basic i ≤ n := by
  rw [hT.columns] at hdrive
  have hd := ((hs.soundState_artificial hA hT).safe_driveOut hA (Nat.le_add_right n m) 1 count
    ⟨s.1, s.2, events⟩ (Nat.le_refl 1) rfl (by omega) fun i hi hlt => by omega).of_eq_ok hdrive
  exact ⟨hd.1, fun i hi hic => hd.2 rfl i hi (by omega)⟩

/-- Every pivot of a solve is on a nonzero cell. -/
theorem Pivots.isZero_eq_false (hA : A.holds 1 = true) (hT : T.Stores A m n E) {U : Tableau}
    {h t : ℕ} (hpivot : S.Pivots A T U h t) :
    ∃ element, U.get t h = .ok element ∧ element.isZero = false := by
  cases hpivot with
  | loop hs hchoice =>
      rcases hs.soundState hA hT with ⟨m', n', hs, -⟩
      rcases (soundRule_loop hA _ m' n' _ hs).of_eq_ok hchoice with ⟨-, hhn, -, htm, hne⟩
      exact ⟨_, hs.stores.get _ htm _ hhn, hne⟩
  -- Both ways of pricing out pivot on a basic column in its own row, where it is one.
  | @price start U done _ hstart hdone hpriced =>
      rw [hT.constraints] at hdone
      rw [hT.columns]
      rcases (hT.safe_priceArtificial hA hstart hdone.le).of_eq_ok hpriced with ⟨F, hU, hunit, -⟩
      have hone := hunit.unit_self (Nat.succ_pos done) hdone
      refine ⟨F (done + 1) (n + (done + 1)), hU.get _ hdone _ (by omega), ?_⟩
      rw [hone]
      rfl
  | @drive s events d done basic h hs _ hdone hdrive _ _ hfirst =>
      rw [hT.constraints] at hdone
      rw [hT.columns] at hfirst
      have hd := (hs.soundState_driven hA hT hdrive hdone.le).1
      rcases (hd.safe_firstNonzero hdone (Nat.le_add_right n m)).of_eq_ok hfirst h rfl with
        ⟨-, hhn, hne⟩
      exact ⟨_, hd.stores.get _ hdone _ (by omega), hne⟩
  | @reprice s events d copied U done h hs _ hdrive hcopied hdone hpriced hbasic =>
      rw [hT.constraints] at hdone hdrive hcopied
      rcases hs.soundState_driven hA hT hdrive (Nat.le_refl m) with ⟨hd, hcolumns⟩
      rcases (hT.safe_priceCopied hA hd (Nat.le_add_right n m) hcolumns hcopied hdone.le).of_eq_ok
        hpriced with ⟨F, hU, hunit, -⟩
      rw [hd.basis.inRow (Nat.succ_pos done) hdone, Except.ok.injEq] at hbasic
      subst hbasic
      have hone := hunit.unit_self (Nat.succ_pos done) hdone
      refine ⟨_, hU.get _ hdone _ (hunit.basic_le _ (Nat.succ_pos done) hdone), ?_⟩
      rw [hone]
      rfl

end Solver
end ExactSimplex
