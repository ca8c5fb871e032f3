import ExactSimplex.Proofs.Program.Cuts
import ExactSimplex.Proofs.Simplex.DualEnds
import ExactSimplex.Proofs.Simplex.PhaseOne
import ExactSimplex.Proofs.Tableau.StartingBasis
import ExactSimplex.Simplex.CuttingPlane

/-!
# Cutting planes are right

Between two cuts the tableau is optimal for a program that tightens the original one.  A cut keeps the
reduced costs nonnegative, so the dual method can take over; it ends in an equivalent tableau that is
optimal again, or in a row that no nonnegative point solves.  Neither loses an integer solution of the
original program.

Main results:

- Theorem {lit}`CutState.addCut`: the state after a cut.
- Theorem {lit}`CutState.of_run`: the state after the dual method has taken over.
- Theorem {lit}`RoundState.cutRounds`: the rounds end in an integral optimum or show that no integer
  solution exists.
- Theorem {lit}`cuttingPlane_answer`: what the answer of the cutting plane method says.
-/

namespace ExactSimplex

open Finset Fraction

variable {M₀ : Values} {m₀ n₀ m n : ℕ} {s : State}

/-! ## Rounds -/

/-- An optimal state of a program that tightens `M₀`. -/
structure RoundState (M₀ : Values) (m₀ n₀ m n : ℕ) (s : State) : Prop
    extends PrimalState m n s.1.values s where
  cost_nonneg : ∀ j, 1 ≤ j → j ≤ n → 0 ≤ s.1.values 0 j
  basic_pos : BasicPos m s
  tightens : M₀.Tightens m₀ n₀ s.1.values m n

/-- A canonical state of a program is one of its own numbers. -/
theorem CanonicalState.self {M : Values} (hs : CanonicalState m n M s) :
    CanonicalState m n s.1.values s :=
  ⟨hs.tableau, hs.basis, hs.canonical, .refl _ _ _⟩

/-- A state of the dual method for a program that tightens `M₀`. -/
structure CutState (M₀ : Values) (m₀ n₀ m n : ℕ) (s : State) : Prop
    extends DualState m n s.1.values s where
  basic_pos : BasicPos m s
  tightens : M₀.Tightens m₀ n₀ s.1.values m n

/-- A state of a round is ready for cuts. -/
theorem RoundState.cutState (hs : RoundState M₀ m₀ n₀ m n s) : CutState M₀ m₀ n₀ m n s :=
  ⟨⟨hs.toCanonicalState, hs.cost_nonneg⟩, hs.basic_pos, hs.tightens⟩

/-- A cut from any constraint row leads to a state of the dual method again. -/
theorem CutState.addCut (hs : CutState M₀ m₀ n₀ m n s) {r : ℕ} (hr : 1 ≤ r) (hrm : r ≤ m) :
    ∃ s', Tableau.addCut .exact s.1 s.2 r = .ok s' ∧ CutState M₀ m₀ n₀ (m + 1) (n + 1) s' := by
  rcases hs.tableau.addCut hs.basis hrm with ⟨U, C, hcut, hU, hC⟩
  have hvalues : U.values = s.1.values.cut m n r := hU.values
  have hbasic : C.basic = Function.update s.2.basic (m + 1) (n + 1) := hC.basic
  refine ⟨(U, C), hcut, ⟨⟨⟨?_, ?_, ?_, .refl _ _ _⟩, fun j hj hjn => ?_⟩, fun i hi him => ?_, ?_⟩⟩
  · rwa [hvalues]
  · rwa [hbasic]
  · rw [hvalues, hbasic]
    exact hs.canonical.cut hrm
  · rw [hvalues]
    rcases Nat.lt_succ_iff_lt_or_eq.mp (Nat.lt_succ_of_le hjn) with hlt | rfl
    · rw [Values.cut_of_le (Nat.zero_le m) (by omega)]
      exact hs.cost_nonneg j hj (by omega)
    · rw [Values.cut_slack (Nat.zero_le m)]
  · rw [hbasic]
    by_cases him' : i = m + 1
    · rw [him', Function.update_self]
      omega
    · rw [Function.update_of_ne him']
      exact hs.basic_pos i hi (by omega)
  · rw [hvalues]
    exact hs.tightens.trans (Values.tightens_cut _ hr hrm)

/-- The dual method leads to an optimal state, or it shows that there is no integer solution. -/
theorem CutState.of_run {T : Tableau} {B : Basis} (hs : CutState M₀ m₀ n₀ m n (T, B)) {budget : ℕ}
    {run : Run SimplexStatus} (hrun : T.dualSimplex .exact budget B = .ok run) :
    match run.result with
    | .optimal => RoundState M₀ m₀ n₀ m n (run.tableau, run.basis)
    | .unbounded => ∀ x, IntegerPoint n₀ x → ¬M₀.Satisfies m₀ n₀ x := by
  rcases hs.toDualState.of_run hs.basic_pos hrun with ⟨hlast, hlastPos, hverdict⟩
  have htightens := hs.tightens.trans (.of_equivalent hlast.equivalent)
  cases hresult : run.result with
  | optimal =>
      rw [hresult] at hverdict
      exact ⟨⟨hlast.self, hverdict⟩, hlast.cost_nonneg, hlastPos, htightens⟩
  | unbounded =>
      rw [hresult] at hverdict
      rcases hverdict with ⟨t, ht, htm, hrhs, hrow⟩
      intro x hint hx
      rcases htightens.extends_to x hint hx with ⟨y, -, hyint, hy⟩
      exact Values.not_satisfies_of_row ht htm hrhs hrow hyint.nonneg hy

/-- What the answer of the rounds and their last state say about the original program. -/
def RoundsAnswer (M₀ : Values) (m₀ n₀ : ℕ) (s : State) : IntegerStatus → Prop
  | .optimal => ∃ m n, RoundState M₀ m₀ n₀ m n s ∧
      ∀ i, 1 ≤ i → i ≤ m → ∃ z : ℤ, s.1.values i 0 = z
  | .infeasible => ∀ x, IntegerPoint n₀ x → ¬M₀.Satisfies m₀ n₀ x
  | .unbounded => True

/-- One more round from a state of the dual method: every right-hand side is an integer and nothing is
done, or a cut shows that there is no integer solution, or it leads to an optimal state for the rounds
that are left. -/
theorem CutState.cutRounds_succ {T : Tableau} {B : Basis} {budget rounds round : ℕ}
    {run : Run IntegerStatus} (hs : CutState M₀ m₀ n₀ m n (T, B))
    (h : Tableau.cutRounds .exact budget (rounds + 1) round T B = .ok run) :
    (run = ⟨.optimal, T, B, []⟩ ∧ ∀ i, 1 ≤ i → i ≤ m → ∃ z : ℤ, T.values i 0 = z) ∨
      (run.result = .infeasible ∧ ∀ x, IntegerPoint n₀ x → ¬M₀.Satisfies m₀ n₀ x) ∨
      ∃ (m' n' : ℕ) (T' : Tableau) (B' : Basis) (rest : Run IntegerStatus) (events : List Event),
        RoundState M₀ m₀ n₀ m' n' (T', B') ∧
        Tableau.cutRounds .exact budget rounds (round + 1) T' B' = .ok rest ∧
        run = rest.after events := by
  rcases Tableau.cutRounds_cases h with ⟨hfound, rfl⟩ | ⟨r, s, inner, hfound, hcut, hinner, hcases⟩
  · rcases hs.tableau.fractionalRow_cases with ⟨-, hint⟩ | ⟨r, hsome, -⟩
    · exact Or.inl ⟨rfl, hint⟩
    · cases hfound.symm.trans hsome
  · rcases hs.tableau.fractionalRow_cases with ⟨hnone, -⟩ | ⟨r', hsome, hr, hrm⟩
    · cases hfound.symm.trans hnone
    · cases hfound.symm.trans hsome
      rcases hs.addCut hr hrm with ⟨s', hcut', hcutState⟩
      obtain rfl := Except.ok.inj (hcut'.symm.trans hcut)
      have hanswer := hcutState.of_run hinner
      rcases hcases with ⟨hresult, rfl⟩ | ⟨rest, hresult, hrest, rfl⟩ <;> rw [hresult] at hanswer
      · exact Or.inr (Or.inl ⟨rfl, hanswer⟩)
      · exact Or.inr (Or.inr ⟨_, _, _, _, rest, _, hanswer, hrest, rfl⟩)

/-- The rounds are right, by induction on the number of rounds that are allowed: each of them leads from
one optimal state of a tightened program to another one or shows that there is no integer solution. -/
theorem RoundState.cutRounds {T : Tableau} {B : Basis} {budget rounds round : ℕ}
    {run : Run IntegerStatus} (hs : RoundState M₀ m₀ n₀ m n (T, B))
    (h : Tableau.cutRounds .exact budget rounds round T B = .ok run) :
    RoundsAnswer M₀ m₀ n₀ (run.tableau, run.basis) run.result := by
  induction rounds generalizing m n round T B run with
  | zero => cases h
  | succ rounds ih =>
      rcases hs.cutState.cutRounds_succ h with ⟨rfl, hint⟩ | ⟨hresult, hnone⟩ |
        ⟨m', n', T', B', rest, events, hs', hrest, rfl⟩
      · exact ⟨m, n, hs, hint⟩
      · rw [hresult]
        exact hnone
      · have hrounds := ih hs' hrest
        exact hrounds

/-- The relaxed program and the cuts are right from every feasible state on. -/
theorem PrimalState.relaxAndCut {M : Values} {T : Tableau} {B : Basis}
    (hs : PrimalState m n M (T, B)) (hpos : BasicPos m (T, B)) {budget : ℕ} {run : Run IntegerStatus}
    (h : Tableau.relaxAndCut .exact budget T B = .ok run) :
    RoundsAnswer M m n (run.tableau, run.basis) run.result := by
  rcases Tableau.relaxAndCut_cases h with ⟨inner, hinner, ⟨-, rfl⟩ | ⟨rest, hresult, hrest, rfl⟩⟩
  · trivial
  · rcases hs.of_run hpos hinner with ⟨hlast, hlastPos, hverdict⟩
    rw [hresult] at hverdict
    have hround : RoundState M m n m n (inner.tableau, inner.basis) :=
      ⟨⟨hlast.self, hlast.rhs_nonneg⟩, hverdict, hlastPos, .of_equivalent hlast.equivalent⟩
    have hrounds := hround.cutRounds hrest
    exact hrounds

/-! ## Integer optima -/

/-- The listed values are a cheapest nonnegative integer solution, of cost `z`. -/
structure Values.IntegerOptimum (M : Values) (m n : ℕ) (values : List Fraction) (z : Fraction) :
    Prop where
  length : values.length = n
  integer : IntegerPoint n (Tableau.pointOf values)
  satisfies : M.Satisfies m n (Tableau.pointOf values)
  cost : M.cost n (Tableau.pointOf values) = z.toRat
  least : ∀ x, IntegerPoint n x → M.Satisfies m n x → z.toRat ≤ M.cost n x

/-- An optimal state with integral right-hand sides shows an integer optimum of the original program. -/
theorem RoundState.integerOptimum (hs : RoundState M₀ m₀ n₀ m n s)
    (hint : ∀ i, 1 ≤ i → i ≤ m → ∃ z : ℤ, s.1.values i 0 = z) :
    ∃ values z, s.1.basicSolution s.2 = .ok values ∧ s.1.objectiveValue .exact = .ok z ∧
      M₀.IntegerOptimum m₀ n₀ (values.take n₀) z := by
  rcases hs.basicSolution hs.basic_pos hs.tightens.columns_le with ⟨values, hvalues, hlength, hsame⟩
  set p := s.1.values.basicPoint m s.2.basic with hp
  have hsat : s.1.values.Satisfies m n p := hs.satisfies_basicPoint hs.basic_pos
  refine ⟨values, _, hvalues, hs.tableau.objectiveValue, hlength, fun j hj hjn => ?_,
    (hs.tightens.satisfies p hsat).congr hsame, ?_, fun x hx hxsat => ?_⟩
  · rw [hsame j hj hjn]
    refine ⟨Values.basicPoint_nonneg hs.rhs_nonneg j, ?_⟩
    by_cases hbasic : ∃ i, 1 ≤ i ∧ i ≤ m ∧ s.2.basic i = j
    · rcases hbasic with ⟨i, hi, him, rfl⟩
      rw [hp, Values.basicPoint, hs.canonical.scatter_basic hi him]
      exact hint i hi him
    · refine ⟨0, ?_⟩
      rw [hp, Values.basicPoint, Values.scatter_of_not_mem, Int.cast_zero]
      exact fun i hi him hij => hbasic ⟨i, hi, him, hij⟩
  · rw [M₀.cost_congr hsame, hs.tightens.cost p hsat, toRat_ofRat]
    exact hs.cost_basicPoint hs.basic_pos
  · rcases hs.tightens.extends_to x hx hxsat with ⟨y, hyx, hyint, hy⟩
    rw [toRat_ofRat, ← M₀.cost_congr hyx, hs.tightens.cost y hy]
    exact hs.cost_le hs.cost_nonneg hyint.nonneg hy

/-! ## The method -/

/-- The stage is right from a starting basis that is feasible and from phase one. -/
theorem Tableau.WellFormed.cutFromStart {T : Tableau} (hT : T.WellFormed) {B : Basis} {budget : ℕ}
    {run : Run (Except SolveError IntegerStatus)}
    (hstart : ∀ found, T.startingBasis .exact = .ok (some found) →
      ∀ i, 1 ≤ i → i ≤ T.constraints → 0 ≤ T.values i 0)
    (h : T.cutFromStart .exact budget B = .ok run) {status : IntegerStatus}
    (hstatus : run.result = .ok status) :
    RoundsAnswer T.values T.constraints T.columns (run.tableau, run.basis) status := by
  rcases Tableau.cutFromStart_cases h with ⟨found, inner, hfound, hinner, rfl⟩ |
    ⟨first, -, hfirst, ⟨e, -, rfl⟩ | ⟨hinfeasible, rfl⟩ | ⟨inner, hfeasible, hinner, rfl⟩⟩
  · obtain rfl := Except.ok.inj hstatus
    rcases hT.represents.startingBasis hfound with ⟨hB, hcanonical, hpos⟩
    have hs : PrimalState T.constraints T.columns T.values (T, found) :=
      ⟨⟨hT.represents, hB, hcanonical, .refl _ _ _⟩, hstart found hfound⟩
    exact hs.relaxAndCut hpos hinner
  · cases hstatus
  · obtain rfl := Except.ok.inj hstatus
    have hanswer := hT.represents.of_phaseOne hfirst
    rw [PhaseOneAnswer, hinfeasible] at hanswer
    exact fun x hx => hanswer x hx.nonneg
  · obtain rfl := Except.ok.inj hstatus
    have hanswer := hT.represents.of_phaseOne hfirst
    rw [PhaseOneAnswer, hfeasible] at hanswer
    exact hanswer.1.relaxAndCut hanswer.2 hinner

/-- Whatever the number of rounds, a run of the cutting plane method that starts from a feasible basis or
from phase one is right: an optimum lists a cheapest nonnegative integer solution, and an infeasible
program has no nonnegative integer solution. -/
theorem cuttingPlane_answer {T : Tableau} (hT : T.WellFormed) {B : Basis} {budget : ℕ}
    {run : Run (Except SolveError IntegerStatus)}
    (hrun : T.cuttingPlane .exact budget B = .ok run)
    (hstart : ∀ found, T.startingBasis .exact = .ok (some found) →
      ∀ i, 1 ≤ i → i ≤ T.constraints → 0 ≤ T.values i 0) :
    (run.result = .ok .optimal → ∃ values z, run.tableau.basicSolution run.basis = .ok values ∧
      run.tableau.objectiveValue .exact = .ok z ∧
      T.values.IntegerOptimum T.constraints T.columns (values.take T.columns) z) ∧
    (run.result = .ok .infeasible → ∀ x, IntegerPoint T.columns x → ¬T.Satisfies x) := by
  rcases Calc.bind_eq_ok.mp hrun with ⟨⟨result, U, C, events⟩, hinner, h⟩
  rcases result with e | status
  · cases Calc.pure_eq_ok.mp h
    constructor
    · intro hoptimal
      cases hoptimal
    · intro hinfeasible
      cases hinfeasible
  · have hanswer := hT.cutFromStart hstart hinner rfl
    obtain ⟨objective, rfl⟩ : ∃ objective, run = ⟨.ok status, U, C, .started .cuttingPlane :: events ++
        [.finished .cuttingPlane status.outcome objective]⟩ := by
      cases status <;>
        · rcases Calc.bind_eq_ok.mp h with ⟨objective, -, h⟩
          exact ⟨objective, (Calc.pure_eq_ok.mp h).symm⟩
    refine ⟨fun hoptimal => ?_, fun hinfeasible => ?_⟩
    · obtain rfl := Except.ok.inj hoptimal
      rcases hanswer with ⟨m, n, hs, hint⟩
      exact hs.integerOptimum hint
    · obtain rfl := Except.ok.inj hinfeasible
      exact hanswer

/-- A program whose relaxed optimum is not an integer. -/
def halves : Tableau where
  columns := 2
  constraints := 1
  entries := #[⟨0, 1⟩, ⟨-1, 1⟩, ⟨0, 1⟩, ⟨3, 1⟩, ⟨2, 1⟩, ⟨1, 1⟩]

/-- An integer optimum that lies behind a cut. -/
theorem cuttingPlane_answer_halves :
    ∃ run values z, halves.cuttingPlane .exact 5 ⟨[]⟩ = .ok run ∧
      run.tableau.basicSolution run.basis = .ok values ∧
      halves.values.IntegerOptimum 1 2 (values.take 2) z := by
  have hresult : (halves.cuttingPlane .exact 5 ⟨[]⟩).map (fun run => run.result) =
      .ok (.ok .optimal) := by
    decide +kernel
  cases hrun : halves.cuttingPlane .exact 5 ⟨[]⟩ with
  | error fault =>
      rw [hrun] at hresult
      cases hresult
  | ok run =>
      rw [hrun] at hresult
      obtain ⟨values, z, hvalues, -, hoptimum⟩ :=
        (cuttingPlane_answer (T := halves) (by decide) hrun fun _ _ => by decide +kernel).1
          (Except.ok.inj hresult)
      exact ⟨run, values, z, rfl, hvalues, hoptimum⟩

end ExactSimplex
