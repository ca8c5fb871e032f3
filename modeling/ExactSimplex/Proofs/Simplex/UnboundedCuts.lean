import ExactSimplex.Proofs.Program.Directions
import ExactSimplex.Proofs.Simplex.AnyStart
import ExactSimplex.Proofs.Simplex.EventWords

/-!
# Unbounded integer programs

Cutting planes call a program unbounded when its relaxed program shows a descending direction.  The direction
consists of rational numbers, so it lowers the cost of an integer solution without limit as well, through
integer solutions.  It does not tell whether there is an integer solution, and from a basis that is not
feasible not even whether the relaxed program has a solution.

Main results:

- Theorem {lit}`CanonicalState.exists_descends`: the direction that an unbounded verdict shows.
- Theorem {lit}`Tableau.WellFormed.cutFromStart_unbounded`: the state that the verdict is taken from.
- Theorem {lit}`cuttingPlane_unbounded`: what the verdict says about the program.
- Theorem {lit}`not_forall_unbounded_integers`: it does not say that there are integer solutions.
-/

namespace ExactSimplex

open Calc

variable {A : Arithmetic} {M : Values} {m n budget : ℕ} {T : Tableau} {B : Basis} {s : State}

/-- A state that shows an unbounded program shows a descending direction of integers. -/
theorem CanonicalState.exists_descends (hs : CanonicalState m n M s) (hpos : BasicPos m s)
    (hverdict : PrimalVerdict m n s.1.values .unbounded) :
    ∃ d, IntegerPoint n d ∧ M.Descends m n d := by
  rcases hverdict with ⟨h, hh, hhn, hcost, hcolumn⟩
  have hshown := hs.canonical.descends_direction hpos hh hhn hcost
  have hdescends := hs.equivalent.descends (Values.direction_zero hpos hh) hshown
  exact hdescends.exists_integer fun j _ _ => Values.direction_nonneg hcolumn j

/-- Only the relaxed program can be unbounded. -/
theorem Tableau.relaxAndCut_unbounded {run : Run IntegerStatus} (h : relaxAndCut A budget T B = .ok run)
    (hresult : run.result = .unbounded) :
    ∃ inner, primalSimplex A budget T B = .ok inner ∧ inner.result = .unbounded := by
  rcases relaxAndCut_cases h with ⟨inner, hinner, ⟨hstatus, -⟩ | ⟨rest, -, hrest, rfl⟩⟩
  · exact ⟨inner, hinner, hstatus⟩
  · rcases cutRounds_word hrest with ⟨cuts, hword, -⟩
    exact absurd hresult hword.ne_unbounded

/-- An unbounded verdict is taken from a run of the primal method, which starts from a canonical state of the
program; the state is feasible unless it was found in the tableau. -/
theorem Tableau.WellFormed.cutFromStart_unbounded (hT : T.WellFormed)
    {run : Run (Except SolveError IntegerStatus)} (h : T.cutFromStart .exact budget B = .ok run)
    (hresult : run.result = .ok .unbounded) :
    ∃ s inner, CanonicalState T.constraints T.columns T.values s ∧ BasicPos T.constraints s ∧
      s.1.primalSimplex .exact budget s.2 = .ok inner ∧ inner.result = .unbounded ∧
      ((∃ found, T.startingBasis .exact = .ok (some found) ∧ s = (T, found)) ∨
        ∀ i, 1 ≤ i → i ≤ T.constraints → 0 ≤ s.1.values i 0) := by
  rcases cutFromStart_cases h with ⟨found, relaxed, hfound, hrelaxed, rfl⟩ |
    ⟨first, -, hfirst, ⟨e, -, rfl⟩ | ⟨-, rfl⟩ | ⟨relaxed, hfeasible, hrelaxed, rfl⟩⟩
  · rcases relaxAndCut_unbounded hrelaxed (Except.ok.inj hresult) with ⟨inner, hinner, hstatus⟩
    rcases hT.represents.startingBasis hfound with ⟨hB, hcanonical, hpos⟩
    have hs : CanonicalState T.constraints T.columns T.values (T, found) :=
      ⟨hT.represents, hB, hcanonical, .refl _ _ _⟩
    exact ⟨(T, found), inner, hs, hpos, hinner, hstatus, Or.inl ⟨found, hfound, rfl⟩⟩
  · cases hresult
  · cases hresult
  · rcases relaxAndCut_unbounded hrelaxed (Except.ok.inj hresult) with ⟨inner, hinner, hstatus⟩
    have hanswer := hT.represents.of_phaseOne hfirst
    rw [PhaseOneAnswer, hfeasible] at hanswer
    exact ⟨(first.tableau, first.basis), inner, hanswer.1.toCanonicalState, hanswer.2, hinner,
      hstatus, Or.inr hanswer.1.rhs_nonneg⟩

/-- What an unbounded verdict of cutting planes says: there is a descending direction of integers, hence no
cost is least among the integer solutions, nor among all solutions, if there is one at all.  From a feasible
basis and after phase one the relaxed program does have a solution. -/
theorem cuttingPlane_unbounded (hT : T.WellFormed) {run : Run (Except SolveError IntegerStatus)}
    (hrun : T.cuttingPlane .exact budget B = .ok run) (hresult : run.result = .ok .unbounded) :
    (∃ d, IntegerPoint T.columns d ∧ T.values.Descends T.constraints T.columns d) ∧
      ((∃ x, IntegerPoint T.columns x ∧ T.Satisfies x) →
        ∀ K, ∃ x, IntegerPoint T.columns x ∧ T.Satisfies x ∧ T.cost x < K) ∧
      ((∃ x, Nonneg T.columns x ∧ T.Satisfies x) →
        ∀ K, ∃ x, Nonneg T.columns x ∧ T.Satisfies x ∧ T.cost x < K) ∧
      ((∀ found, T.startingBasis .exact = .ok (some found) →
          ∀ i, 1 ≤ i → i ≤ T.constraints → 0 ≤ T.values i 0) →
        ∃ x, Nonneg T.columns x ∧ T.Satisfies x) := by
  rcases Tableau.cutFromStart_of_cuttingPlane hrun with ⟨fromStart, hfromStart, hsame, -⟩
  rcases hT.cutFromStart_unbounded hfromStart (hsame.symm.trans hresult) with
    ⟨s, inner, hs, hpos, hinner, hstatus, hstart⟩
  obtain ⟨d, hint, hd⟩ : ∃ d, IntegerPoint T.columns d ∧
      T.values.Descends T.constraints T.columns d := by
    rcases hs.of_primal_run hpos hinner with ⟨hlast, hlastPos, hverdict⟩
    rw [hstatus] at hverdict
    exact hlast.exists_descends hlastPos hverdict
  refine ⟨⟨d, hint, hd⟩, fun hsolution K => ?_, fun hsolution K => ?_, fun hfeasible => ?_⟩
  · rcases hsolution with ⟨x, hx, hsat⟩
    rcases hd.exists_lt hsat K with ⟨c, hsat', hcost⟩
    exact ⟨_, hx.add_multiple hint c, hsat', hcost⟩
  · rcases hsolution with ⟨x, hx, hsat⟩
    rcases hd.exists_lt hsat K with ⟨c, hsat', hcost⟩
    exact ⟨_, hx.add_multiple hint.nonneg c, hsat', hcost⟩
  · have hrhs : ∀ i, 1 ≤ i → i ≤ T.constraints → 0 ≤ s.1.values i 0 := by
      rcases hstart with ⟨found, hfound, rfl⟩ | hrhs
      · exact hfeasible found hfound
      · exact hrhs
    exact ⟨_, fun j _ _ => Values.basicPoint_nonneg hrhs j, hs.satisfies_basicPoint hpos⟩

/-- A program without an identity: the first variable has to be an integer, and the second one lowers the
cost without limit. -/
def freeFall : Tableau where
  columns := 2
  constraints := 1
  entries := #[⟨0, 1⟩, ⟨0, 1⟩, ⟨-1, 1⟩, ⟨4, 1⟩, ⟨2, 1⟩, ⟨0, 1⟩]

/-- A program whose integer points fall without limit. -/
theorem cuttingPlane_unbounded_freeFall :
    ∃ run, freeFall.cuttingPlane .exact 5 ⟨[]⟩ = .ok run ∧ run.result = .ok .unbounded ∧
      ∀ K, ∃ x, IntegerPoint 2 x ∧ freeFall.Satisfies x ∧ freeFall.cost x < K := by
  have hanswer : (freeFall.cuttingPlane .exact 5 ⟨[]⟩).map (fun run => run.result) =
      .ok (.ok .unbounded) := by
    decide +kernel
  rcases map_eq_ok.mp hanswer with ⟨run, hrun, hresult⟩
  obtain ⟨-, hbelow, -⟩ := cuttingPlane_unbounded (T := freeFall) (by decide) hrun hresult
  refine ⟨run, hrun, hresult, hbelow ⟨fun j => if j = 1 then 2 else 0, fun j _ _ => ?_, ?_⟩⟩
  · dsimp only
    split
    · exact ⟨by norm_num, 2, by norm_num⟩
    · exact ⟨le_rfl, 0, by norm_num⟩
  · intro i hi him
    have him' : i ≤ 1 := him
    obtain rfl : i = 1 := by omega
    decide +kernel

/-- A program of which the relaxed one is unbounded, while twice an integer would have to be one. -/
def oddDouble : Tableau where
  columns := 2
  constraints := 1
  entries := #[⟨0, 1⟩, ⟨0, 1⟩, ⟨-1, 1⟩, ⟨1, 1⟩, ⟨2, 1⟩, ⟨0, 1⟩]

/-- The verdict does not say that there are integer solutions. -/
theorem not_forall_unbounded_integers :
    ¬∀ (T : Tableau) (B : Basis) (budget : ℕ) (run : Run (Except SolveError IntegerStatus)),
      T.WellFormed → T.cuttingPlane .exact budget B = .ok run → run.result = .ok .unbounded →
      ∀ K, ∃ x, IntegerPoint T.columns x ∧ T.Satisfies x ∧ T.cost x < K := by
  intro hclaim
  have hanswer : (oddDouble.cuttingPlane .exact 5 ⟨[]⟩).map (fun run => run.result) =
      .ok (.ok .unbounded) := by
    decide +kernel
  rcases map_eq_ok.mp hanswer with ⟨run, hrun, hresult⟩
  rcases hclaim oddDouble ⟨[]⟩ 5 run (by decide) hrun hresult 0 with ⟨x, hx, hsat, -⟩
  rcases (hx 1 le_rfl (by decide)).2 with ⟨z, hz⟩
  have hsum : ∑ j ∈ Finset.Icc 1 2, oddDouble.values 1 j * x j =
      oddDouble.values 1 1 * x 1 + oddDouble.values 1 2 * x 2 := by
    rw [Finset.sum_Icc_succ_top (by decide), Finset.Icc_self, Finset.sum_singleton]
  have hrow := hsum.symm.trans (hsat 1 le_rfl le_rfl)
  have hodd : 2 * (z : ℚ) = 1 := by
    have hvalues : oddDouble.values 1 1 = 2 ∧ oddDouble.values 1 2 = 0 ∧
        oddDouble.values 1 0 = 1 := by
      decide +kernel
    rw [hvalues.1, hvalues.2.1, hvalues.2.2, hz] at hrow
    linarith
  have hodd' : 2 * z = 1 := by exact_mod_cast hodd
  omega

end ExactSimplex
