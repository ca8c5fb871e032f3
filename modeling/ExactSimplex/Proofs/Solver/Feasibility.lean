import ExactSimplex.Proofs.Solver.TwoPhase
import Mathlib.LinearAlgebra.Matrix.NonsingularInverse
import Mathlib.LinearAlgebra.Matrix.Rank

/-!
# The trichotomy of phase one

A tableau that is equivalent to a canonical one has independent constraint rows: their entries in the
basic columns are a regular matrix.  Hence the three answers of phase one exclude each other, and each of
them is given exactly when the program has or lacks a nonnegative solution and the coefficient matrix has
or lacks full rank.

Main results:

- Theorem {lit}`CanonicalState.linearIndependent`: a canonical state has independent constraint rows.
- Theorem {lit}`Tableau.rank_eq_iff`: the rows are independent exactly when the rank is full.
- Theorem {lit}`phaseOne_trichotomy`: when phase one gives which answer, and what it prepares.
-/

namespace ExactSimplex

open Finset Fraction

/-! ## Rank -/

/-- A sum over the constraint rows as a sum over their positions. -/
theorem sum_rows_eq_sum_fin (m : ℕ) (f : ℕ → ℚ) :
    ∑ i ∈ Icc 1 m, f i = ∑ i : Fin m, f (i + 1) := by
  have hsucc := sum_range_succ' f m
  rw [Values.sum_columns] at hsucc
  rw [Fin.sum_univ_eq_sum_range fun i => f (i + 1)]
  linarith

/-- The entries of the constraint rows in the basic columns. -/
def Values.basisMatrix (M : Values) (m : ℕ) (β : ℕ → ℕ) : Matrix (Fin m) (Fin m) ℚ :=
  Matrix.of fun i k => M (i + 1) (β (k + 1))

/-- If the tableau is equivalent to one that is canonical for a basis, its entries in the basic columns
are a regular matrix. -/
theorem Values.Equivalent.isUnit_basisMatrix {M N : Values} {m n : ℕ} {β : ℕ → ℕ}
    (heq : Values.Equivalent m n M N) (hN : N.Canonical m n β) : IsUnit (M.basisMatrix m β) := by
  rw [← Matrix.mulVec_injective_iff_isUnit, ← Matrix.coe_mulVecLin, ← LinearMap.ker_eq_bot,
    LinearMap.ker_eq_bot']
  intro v hv
  -- The weights `v` of the basic columns make the rows of `M` vanish, hence those of `N`.
  set g : ℕ → ℚ := fun i => if h : i - 1 < m then v ⟨i - 1, h⟩ else 0 with hg
  have hmem : ∀ i, 1 ≤ i → i ≤ m → β i ∈ range (n + 1) := fun i hi him =>
    mem_range.mpr (Nat.lt_succ_of_le (hN.basic_le i hi him))
  have hM : M.Annihilates m n (Values.scatter m β g) := by
    intro i hi him
    rcases Nat.exists_eq_add_of_le' hi with ⟨i, rfl⟩
    have hrow : ∑ k : Fin m, M (i + 1) (β (k + 1)) * v k = 0 := congrFun hv ⟨i, by omega⟩
    rw [Values.weigh, Values.sum_mul_scatter _ _ _ hmem, sum_rows_eq_sum_fin, ← hrow]
    apply sum_congr rfl
    intro k _
    simp [hg, mul_comm]
  have hzero := (heq.annihilates_iff _).mp hM
  funext k
  have hk := hzero (k + 1) (by omega) (by omega)
  rw [Values.weigh, Values.sum_mul_scatter _ _ _ hmem, hN.sum_mul_unit _ (by omega),
    if_pos (by omega)] at hk
  simpa [hg] using hk

/-- The constraint rows of a program with a canonical state are independent. -/
theorem CanonicalState.linearIndependent {T : Tableau} {s : State}
    (hs : CanonicalState T.constraints T.columns T.values s) (hpos : BasicPos T.constraints s) :
    LinearIndependent ℚ T.coefficients := by
  have hbasic : ∀ k : Fin T.constraints, s.2.basic (k + 1) - 1 < T.columns := by
    intro k
    have hle := hs.canonical.basic_le (k + 1) (by omega) (by omega)
    have hge : 1 ≤ s.2.basic (k + 1) := hpos (k + 1) (by omega) (by omega)
    omega
  -- Already the entries in the basic columns make the rows independent.
  apply LinearIndependent.of_comp
    (LinearMap.funLeft ℚ ℚ fun k : Fin T.constraints => (⟨_, hbasic k⟩ : Fin T.columns))
  have hrows : LinearIndependent ℚ (T.values.basisMatrix T.constraints s.2.basic).row :=
    Matrix.linearIndependent_rows_iff_isUnit.mpr (hs.equivalent.isUnit_basisMatrix hs.canonical)
  convert hrows using 1
  funext i k
  have hge : 1 ≤ s.2.basic (k + 1) := hpos (k + 1) (by omega) (by omega)
  have hplace : s.2.basic (k + 1) - 1 + 1 = s.2.basic (k + 1) := by omega
  simp [LinearMap.funLeft_apply, Tableau.coefficients, Values.basisMatrix, Matrix.row, hplace]

/-- The rank of the coefficient matrix. -/
noncomputable def Tableau.rank (T : Tableau) : ℕ :=
  (Matrix.of T.coefficients).rank

/-- The rank is at most the number of constraints. -/
theorem Tableau.rank_le (T : Tableau) : T.rank ≤ T.constraints := by
  simpa [Tableau.rank] using (Matrix.of T.coefficients).rank_le_card_height

/-- The rank is full exactly if the rows of coefficients are independent. -/
theorem Tableau.rank_eq_iff (T : Tableau) :
    T.rank = T.constraints ↔ LinearIndependent ℚ T.coefficients := by
  rw [Tableau.rank, Matrix.rank_eq_finrank_span_row, linearIndependent_iff_card_eq_finrank_span,
    Fintype.card_fin, eq_comm]
  rfl

/-! ## The answers -/

/-- The program has a nonnegative solution. -/
def Tableau.Solvable (T : Tableau) : Prop :=
  ∃ x, Nonneg T.columns x ∧ T.Satisfies x

/-- The tableau `U` states the program of `T` in a feasible canonical basis of its variables. -/
structure Tableau.Prepared (T U : Tableau) (B : Basis) : Prop where
  wellFormed : U.WellFormed
  columns : U.columns = T.columns
  constraints : U.constraints = T.constraints
  size : B.size = T.constraints
  distinct : B.columns.Nodup
  range : ∀ c ∈ B.columns, 1 ≤ c ∧ c ≤ T.columns
  canonical : U.isCanonical .exact B = .ok true
  rhs_nonneg : ∀ i, 1 ≤ i → i ≤ T.constraints → 0 ≤ U.values i 0
  satisfies_iff : ∀ x, U.Satisfies x ↔ T.Satisfies x
  cost_eq : ∀ x, T.Satisfies x → U.cost x = T.cost x

/-- A ready state of the primal method is a prepared program. -/
theorem PrimalState.prepared {T : Tableau} {s : State}
    (hs : PrimalState T.constraints T.columns T.values s) (hpos : BasicPos T.constraints s) :
    T.Prepared s.1 s.2 where
  wellFormed := hs.tableau.wellFormed
  columns := hs.tableau.columns
  constraints := hs.tableau.constraints
  size := hs.basis.size
  distinct := hs.basis.nodup_columns fun _ _ hi him hk hkm heq =>
    hs.canonical.basic_injective hi him hk hkm heq
  range := by
    intro c hc
    rcases hs.basis.mem_columns.mp hc with ⟨i, hi, him, rfl⟩
    exact ⟨hpos i hi him, hs.canonical.basic_le i hi him⟩
  canonical := hs.tableau.isCanonical_iff.mpr ⟨hs.basis, hs.canonical⟩
  rhs_nonneg := hs.rhs_nonneg
  satisfies_iff := by
    intro x
    rw [Tableau.Satisfies, hs.tableau.constraints, hs.tableau.columns]
    exact (hs.equivalent.satisfies_iff x).symm
  cost_eq := by
    intro x hx
    rw [Tableau.cost, hs.tableau.columns]
    exact (hs.equivalent.cost_eq hx).symm

/-- Phase one ends on every well formed tableau.  It answers that the program is infeasible exactly when
there is no nonnegative solution, that a row is dependent exactly when there is one and the coefficient
matrix lacks full rank, and that the program is feasible exactly when there is one and the rank is full.
In the last case it leaves an equivalent tableau with a feasible canonical basis. -/
theorem phaseOne_trichotomy {T : Tableau} (hT : T.WellFormed) (B : Basis) :
    ∃ run, Ends (fun budget => T.phaseOne .exact budget B) run ∧
      (run.result = .ok .infeasible ↔ ¬T.Solvable) ∧
      ((∃ row, run.result = .error (.notFullRank row)) ↔ T.Solvable ∧ T.rank < T.constraints) ∧
      (run.result = .ok .feasible ↔ T.Solvable ∧ T.rank = T.constraints) ∧
      (run.result = .ok .feasible → T.Prepared run.tableau run.basis) := by
  rcases hT.represents.phaseOne B with ⟨⟨result, U, C, events⟩, hends, hanswer⟩
  refine ⟨_, hends, ?_⟩
  unfold PhaseOneAnswer at hanswer
  rcases result with e | status
  · cases e with
    | notFullRank row =>
        rcases hanswer with ⟨hsolvable, hdependent⟩
        have hrank : T.rank ≠ T.constraints := fun h =>
          hdependent.not_linearIndependent (T.rank_eq_iff.mp h)
        have hlt : T.rank < T.constraints := lt_of_le_of_ne T.rank_le hrank
        have hsolvable' : T.Solvable := hsolvable
        simp [hsolvable', hlt, hrank]
    | _ => exact hanswer.elim
  · cases status with
    | infeasible =>
        have hunsolvable : ¬T.Solvable := fun ⟨x, hx, hsat⟩ => hanswer x hx hsat
        simp [hunsolvable]
    | feasible =>
        rcases hanswer with ⟨hs, hpos⟩
        have hprepared : T.Prepared U C := hs.prepared hpos
        have hrank : T.rank = T.constraints :=
          T.rank_eq_iff.mpr (hs.toCanonicalState.linearIndependent hpos)
        have hsolvable : T.Solvable :=
          ⟨_, fun j _ _ => Values.basicPoint_nonneg hs.rhs_nonneg j, hs.satisfies_basicPoint hpos⟩
        simp [hsolvable, hrank, hprepared]

/-- A tableau with a negative right-hand side in which an artificial variable stays basic at zero. -/
def tilted : Tableau where
  columns := 2
  constraints := 2
  entries := #[⟨1, 2⟩, ⟨2, 1⟩, ⟨1, 1⟩, ⟨-1, 1⟩, ⟨-1, 1⟩, ⟨-2, 1⟩, ⟨2, 1⟩, ⟨2, 1⟩, ⟨-1, 1⟩]

/-- A feasible program whose rows have no identity is prepared. -/
theorem phaseOne_trichotomy_tilted :
    ∃ run, Ends (fun budget => tilted.phaseOne .exact budget ⟨[]⟩) run ∧
      run.result = .ok .feasible ∧ tilted.Solvable ∧ tilted.rank = 2 ∧
      tilted.Prepared run.tableau run.basis := by
  obtain ⟨run, hends, -, -, hfeasible, hprepared⟩ :=
    phaseOne_trichotomy (T := tilted) (by decide) ⟨[]⟩
  have hevaluated : (tilted.phaseOne .exact 5 ⟨[]⟩).map (fun run => run.result) =
      .ok (.ok .feasible) := by
    decide +kernel
  have hresult : run.result = .ok .feasible := by
    cases hrun : tilted.phaseOne .exact 5 ⟨[]⟩ with
    | error fault =>
        rw [hrun] at hevaluated
        cases hevaluated
    | ok run' =>
        rw [hrun] at hevaluated
        rw [← hends.eq_of_eq_ok hrun]
        exact Except.ok.inj hevaluated
  rcases hfeasible.mp hresult with ⟨hsolvable, hrank⟩
  exact ⟨run, hends, hresult, hsolvable, hrank, hprepared hresult⟩

end ExactSimplex
