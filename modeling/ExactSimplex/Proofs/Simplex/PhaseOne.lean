import ExactSimplex.Proofs.Simplex.Artificial
import ExactSimplex.Proofs.Simplex.PriceOut
import ExactSimplex.Proofs.Simplex.PrimalEnds

/-!
# Phase one is right

Phase one solves the artificial program, whose cost is never negative.  If its optimum is positive, the
original program has no solution.  Otherwise the artificial variables that are still basic have value
zero, and driving them out moves no basic point.  A row that allows no such pivot shows that the rows
depend on each other.

Main results:

- Theorem {lit}`DriveState.driveOut`: driving out ends with the columns of the program or at such a row.
- Theorem {lit}`DriveState.combination`: such a row is a vanishing combination of the constraint rows.
- Theorem {lit}`DriveState.copyRows_priceOut`: the copied and priced rows state the original program.
- Theorem {lit}`Tableau.Represents.phaseOne`: phase one ends with a right answer.
-/

namespace ExactSimplex

open Finset Fraction

variable {m n : ℕ} {M : Values} {s s' : State} {T : Tableau}

/-- A nontrivial combination of the coefficients of the constraint rows vanishes. -/
def Values.Dependent (M : Values) (m n : ℕ) : Prop :=
  ∃ c : ℕ → ℚ, (∃ k, 1 ≤ k ∧ k ≤ m ∧ c k ≠ 0) ∧
    ∀ j, 1 ≤ j → j ≤ n → ∑ i ∈ Icc 1 m, c i * M i j = 0

/-! ## The artificial program and its optimum -/

/-- The first tableau of phase one shows the artificial program in the artificial basis. -/
theorem Tableau.Represents.artificialStart (hT : T.Represents m n M) :
    ∃ start priced, T.artificialTableau .exact = .ok start ∧
      Tableau.priceOut .exact (fun row => pure (T.columns + row)) 1 T.constraints start = .ok priced ∧
      PrimalState m (n + m) (M.artificial m n) (priced, T.artificialBasis) ∧
      BasicPos m (priced, T.artificialBasis) ∧
      ∀ i, 1 ≤ i → priced.values i = M.artificial m n i := by
  rcases hT.artificialTableau with ⟨start, hstart, hstartM⟩
  have hbasic : ∀ i, 1 ≤ i → i ≤ m → T.artificialBasis.basic i = n + i := fun i =>
    artificialBasis_basic hT
  have hunit : (M.artificial m n).UnitRows m (n + m) T.artificialBasis.basic := by
    constructor
    · intro i hi him
      rw [hbasic i hi him]
      omega
    · intro i hi him k hk hkm
      rw [hbasic i hi him, Values.artificial_unit hi hk hkm]
  have hcolumn : ∀ i, 1 ≤ i → i ≤ m →
      (pure (T.columns + i) : Calc ℕ) = .ok (T.artificialBasis.basic i) := by
    intro i hi him
    rw [hbasic i hi him, hT.columns]
    rfl
  obtain ⟨priced, N, hpriced, hpricedN, hrows, hcanonical, hequivalent⟩ :=
    hstartM.priceOut hcolumn hunit 1 m le_rfl (by omega) fun i hi hlt => by omega
  obtain rfl := hpricedN.values
  refine ⟨start, priced, hstart, by rwa [hT.constraints],
    ⟨⟨hpricedN, ⟨size_artificialBasis hT, rfl⟩, hcanonical, hequivalent⟩, fun i hi him => ?_⟩,
    fun i hi him => ?_, hrows⟩
  · show 0 ≤ priced.values i 0
    rw [hrows i hi, Values.artificial_of_le hi him (Nat.zero_le n)]
    exact M.oriented_rhs_nonneg i
  · show 1 ≤ T.artificialBasis.basic i
    rw [hbasic i hi him]
    omega

section Optimum

variable (hs : PrimalState m (n + m) (M.artificial m n) s) (hpos : BasicPos m s)
include hs hpos

/-- The artificial program is bounded. -/
theorem not_unbounded_artificial : ¬PrimalVerdict m (n + m) s.1.values .unbounded := by
  intro hverdict
  rcases hs.unbounded hpos hverdict 0 with ⟨x, hx, -, hlt⟩
  exact absurd hlt (not_lt.mpr (Values.cost_artificial_nonneg hx))

/-- The primal method solves the artificial program. -/
theorem primalSimplex_artificial :
    ∃ run, Ends (fun budget => s.1.primalSimplex .exact budget s.2) run ∧ run.result = .optimal ∧
      PrimalState m (n + m) (M.artificial m n) (run.tableau, run.basis) ∧
      BasicPos m (run.tableau, run.basis) ∧
      PrimalVerdict m (n + m) run.tableau.values .optimal := by
  rcases hs.exists_run hpos with ⟨run, hrun, hlast, hlastPos, hverdict⟩
  have hresult : run.result = .optimal := by
    cases hresult : run.result with
    | optimal => rfl
    | unbounded =>
        rw [hresult] at hverdict
        have hbounded := not_unbounded_artificial hlast hlastPos
        exact absurd hverdict hbounded
  rw [hresult] at hverdict
  exact ⟨run, hrun, hresult, hlast, hlastPos, hverdict⟩

/-- An optimum other than zero leaves the original program without a solution. -/
theorem infeasible_of_corner_ne_zero (hopt : PrimalVerdict m (n + m) s.1.values .optimal)
    (hcorner : s.1.values 0 0 ≠ 0) {x : ℕ → ℚ} (hx : Nonneg n x) : ¬M.Satisfies m n x := by
  intro hsat
  have hbelow : Nonneg (n + m) (Values.below n x) := by
    intro j hj _
    unfold Values.below
    split
    · next hjn => exact hx j hj hjn
    · exact le_rfl
  have hsat' := (Values.satisfies_artificial_iff M m n x).mpr hsat
  have hle := hs.cost_le hopt hbelow hsat'
  rw [Values.cost_artificial_below] at hle
  have hpoint : Nonneg (n + m) (s.1.values.basicPoint m s.2.basic) := fun j _ _ =>
    Values.basicPoint_nonneg hs.rhs_nonneg j
  have hge := Values.cost_artificial_nonneg (M := M) hpoint
  rw [hs.cost_basicPoint hpos] at hge
  exact hcorner (by linarith)

/-- At the optimum zero the artificial variables that are basic have value zero. -/
theorem artificial_zero_of_corner (hcorner : s.1.values 0 0 = 0) {i : ℕ} (hi : 1 ≤ i) (him : i ≤ m)
    (hbasic : n < s.2.basic i) : s.1.values i 0 = 0 := by
  have hcost := hs.cost_basicPoint hpos
  rw [hcorner, neg_zero] at hcost
  have hvalue : s.1.values.basicPoint m s.2.basic (s.2.basic i) = s.1.values i 0 :=
    hs.canonical.scatter_basic hi him _
  rw [← hvalue]
  exact Values.eq_zero_of_cost_artificial (fun j _ _ => Values.basicPoint_nonneg hs.rhs_nonneg j) hcost
    hbasic (hs.canonical.basic_le i hi him)

end Optimum

/-! ## Driving out artificial variables -/

/-- A feasible state of the artificial program `F` in which the artificial variables that are basic have
value zero. -/
structure DriveState (m n : ℕ) (F : Values) (s : State) : Prop extends PrimalState m (n + m) F s where
  basic_pos : BasicPos m s
  artificial_zero : ∀ i, 1 ≤ i → i ≤ m → n < s.2.basic i → s.1.values i 0 = 0

/-- The artificial variable of the row cannot be swapped for a column of the program. -/
structure Stuck (m n : ℕ) (s : State) (t : ℕ) : Prop where
  row_pos : 1 ≤ t
  row_le : t ≤ m
  basic : n < s.2.basic t
  entries : ∀ j, 1 ≤ j → j ≤ n → s.1.values t j = 0

namespace DriveState

variable {F : Values}

/-- Swapping an artificial variable moves no right-hand side. -/
theorem exchange (hs : DriveState m n F s) {h t : ℕ} (hh : 1 ≤ h) (ht : 1 ≤ t)
    (htm : t ≤ m) (hbasic : n < s.2.basic t) (hs' : CanonicalState m (n + m) F s')
    (hex : Exchange s s' h t) : DriveState m n F s' := by
  have hzero := hs.artificial_zero t ht htm hbasic
  have hrhs : ∀ i, s'.1.values i 0 = s.1.values i 0 := by
    intro i
    rw [hex.values]
    by_cases hit : i = t
    · rw [hit, Values.pivot_self, hzero, zero_div]
    · rw [Values.pivot_of_ne _ h 0 hit, hzero, zero_div, mul_zero, sub_zero]
  refine ⟨⟨hs', fun i hi him => ?_⟩, hs.basic_pos.exchange hex hh, fun i hi him hlt => ?_⟩
  · rw [hrhs]
    exact hs.rhs_nonneg i hi him
  · rw [hrhs]
    by_cases hit : i = t
    · rw [hit, hzero]
    · rw [hex.basic, Function.update_of_ne hit] at hlt
      exact hs.artificial_zero i hi him hlt

/-- The first nonzero coefficient of a row; none if the row has no nonzero coefficient. -/
theorem firstNonzero_cases (hs : DriveState m n F s) {t : ℕ} (htm : t ≤ m) :
    (firstIndex (fun column => do
        let entry ← s.1.get t column
        pure !entry.isZero) 1 n = .ok none ∧ ∀ j, 1 ≤ j → j ≤ n → s.1.values t j = 0) ∨
      ∃ h, firstIndex (fun column => do
        let entry ← s.1.get t column
        pure !entry.isZero) 1 n = .ok (some h) ∧ 1 ≤ h ∧ h ≤ n ∧ s.1.values t h ≠ 0 := by
  have htest : ∀ j, 1 ≤ j → j < 1 + n →
      (do let entry ← s.1.get t j
          pure !entry.isZero : Calc Bool) = .ok (decide (s.1.values t j ≠ 0)) := by
    intro j _ hj
    rw [hs.tableau.get htm (by omega)]
    simp [bind, Except.bind, pure, Except.pure]
  rcases firstIndex_cases htest with ⟨hnone, hzero⟩ | ⟨h, hsome, hh, hlt, hne, -⟩
  · refine Or.inl ⟨hnone, fun j hj hjn => ?_⟩
    simpa using hzero j hj (by omega)
  · exact Or.inr ⟨h, hsome, hh, by omega, by simpa using hne⟩

/-- Driving out ends with columns of the program in all rows or at a row that allows no pivot, by
induction on the number of rows that are left. -/
theorem driveOut (row count : ℕ) (d : Tableau.Drive)
    (hd : DriveState m n F (d.tableau, d.basis)) (hrow : 1 ≤ row) (hcount : row + count = m + 1)
    (hdone : ∀ i, 1 ≤ i → i < row → d.basis.basic i ≤ n) :
    ∃ d' dependent, Tableau.driveOut .exact n row count d = .ok (d', dependent) ∧
      DriveState m n F (d'.tableau, d'.basis) ∧
      match dependent with
      | none => ∀ i, 1 ≤ i → i ≤ m → d'.basis.basic i ≤ n
      | some t => Stuck m n (d'.tableau, d'.basis) t := by
  induction count generalizing row d with
  | zero => exact ⟨d, none, rfl, hd, fun i hi him => hdone i hi (by omega)⟩
  | succ count ih =>
      have hrowm : row ≤ m := by omega
      have hinRow : d.basis.inRow row = .ok (d.basis.basic row) := hd.basis.inRow hrow hrowm
      unfold Tableau.driveOut
      simp only [hinRow, bind, Except.bind]
      by_cases hle : d.basis.basic row ≤ n
      · simp only [hle, if_true]
        apply ih (row + 1) d hd (by omega) (by omega)
        intro i hi hlt
        rcases Nat.lt_succ_iff_lt_or_eq.mp hlt with hlt | rfl
        · exact hdone i hi hlt
        · exact hle
      · simp only [hle, if_false]
        -- An artificial variable is basic here: either its row allows no pivot, or a column takes its place.
        rcases hd.firstNonzero_cases hrowm with ⟨hnone, hzero⟩ | ⟨h, hsome, hh, hhn, hne⟩
        · simp only [bind, Except.bind] at hnone
          simp only [hnone]
          exact ⟨d, some row, rfl, hd, hrow, hrowm, not_le.mp hle, hzero⟩
        · simp only [bind, Except.bind] at hsome
          obtain ⟨U, C, hU, hC, hs', hex⟩ :=
            hd.pivot_enter (by omega : h ≤ n + m) hrow hrowm hne
          have hU' : d.tableau.pivot .exact h row .all = .ok U := hU
          have hC' : d.basis.enter row h = .ok C := hC
          simp only [hsome, hU', hC']
          refine ih (row + 1) _ (hd.exchange hh hrow hrowm (not_le.mp hle) hs' hex) (by omega)
            (by omega) fun i hi hlt => ?_
          have hbasic : C.basic = Function.update d.basis.basic row h := hex.basic
          show C.basic i ≤ n
          rw [hbasic]
          by_cases hi' : i = row
          · rwa [hi', Function.update_self]
          · rw [Function.update_of_ne hi']
            exact hdone i hi (by omega)

/-! ## The states that driving out ends in -/

/-- The basic point has no artificial part, so it solves the original program. -/
theorem satisfies (hs : DriveState m n (M.artificial m n) s) :
    Nonneg n (s.1.values.basicPoint m s.2.basic) ∧
      M.Satisfies m n (s.1.values.basicPoint m s.2.basic) := by
  have hbelow : Values.below n (s.1.values.basicPoint m s.2.basic) =
      s.1.values.basicPoint m s.2.basic := by
    funext j
    unfold Values.below
    split
    · rfl
    · next hj =>
        have hzero : Values.scatter m s.2.basic (fun i => s.1.values i 0) j = 0 := by
          apply sum_eq_zero
          intro i hi
          rcases mem_Icc.mp hi with ⟨hi, him⟩
          split
          · next hij => exact hs.artificial_zero i hi him (by omega)
          · rfl
        exact hzero.symm
  refine ⟨fun j _ _ => Values.basicPoint_nonneg hs.rhs_nonneg j, ?_⟩
  rw [← Values.satisfies_artificial_iff, hbelow]
  exact hs.satisfies_basicPoint hs.basic_pos

/-- A row that allows no pivot is a vanishing combination of the constraint rows, with the entries in the
artificial columns as factors; `P` is a state with the artificial basis.  The row that the basic artificial
variable was made for takes part in it. -/
theorem combination (hs : DriveState m n (M.artificial m n) s) {P : State}
    (hP : CanonicalState m (n + m) (M.artificial m n) P)
    (hbasic : ∀ i, 1 ≤ i → i ≤ m → P.2.basic i = n + i)
    (hrows : ∀ i, 1 ≤ i → P.1.values i = M.artificial m n i) {t : ℕ} (ht : Stuck m n s t) :
    ∃ c : ℕ → ℚ, c (s.2.basic t - n) ≠ 0 ∧
      ∀ j, 1 ≤ j → j ≤ n → ∑ i ∈ Icc 1 m, c i * M i j = 0 := by
  have hequivalent := hs.equivalent.symm.trans hP.equivalent
  refine ⟨fun i => if M i 0 < 0 then -s.1.values t (n + i) else s.1.values t (n + i), ?_,
    fun j hj hjn => ?_⟩
  · have hlt := ht.basic
    have hplace : n + (s.2.basic t - n) = s.2.basic t := by omega
    have hone := hs.canonical.unit t ht.row_pos ht.row_le t ht.row_le
    rw [if_pos rfl] at hone
    dsimp only
    rw [hplace, hone]
    split <;> norm_num
  · have hsum := hequivalent.row_eq hP.canonical ht.row_pos ht.row_le (by omega : j ≤ n + m)
    rw [ht.entries j hj hjn] at hsum
    refine Eq.trans (sum_congr rfl fun i hi => ?_) hsum.symm
    rcases mem_Icc.mp hi with ⟨hi, him⟩
    rw [hrows i hi, hbasic i hi him, Values.artificial_of_le hi him hjn, Values.oriented]
    by_cases hneg : M i 0 < 0
    · simp only [hneg, if_true]
      ring
    · simp only [hneg, if_false]
      ring

/-- The basic artificial variable of a row that allows no pivot was made for one of the rows. -/
theorem artificial_range (hs : DriveState m n F s) {t : ℕ} (ht : Stuck m n s t) :
    1 ≤ s.2.basic t - n ∧ s.2.basic t - n ≤ m := by
  have hle := hs.canonical.basic_le t ht.row_pos ht.row_le
  have hlt := ht.basic
  omega

/-- A row that allows no pivot shows that the constraint rows depend on each other. -/
theorem dependent (hs : DriveState m n (M.artificial m n) s) {P : State}
    (hP : CanonicalState m (n + m) (M.artificial m n) P)
    (hbasic : ∀ i, 1 ≤ i → i ≤ m → P.2.basic i = n + i)
    (hrows : ∀ i, 1 ≤ i → P.1.values i = M.artificial m n i) {t : ℕ} (ht : Stuck m n s t) :
    M.Dependent m n := by
  rcases hs.combination hP hbasic hrows ht with ⟨c, hne, hvanish⟩
  exact ⟨c, ⟨_, (hs.artificial_range ht).1, (hs.artificial_range ht).2, hne⟩, hvanish⟩

/-- Constraint rows of a solved artificial program in place of those of the original one. -/
theorem equivalent_of_rows (hs : DriveState m n (M.artificial m n) s) {K : Values}
    (hcost : ∀ j ≤ n, K 0 j = M 0 j)
    (hrows : ∀ i, 1 ≤ i → i ≤ m → ∀ j ≤ n, K i j = s.1.values i j) : Values.Equivalent m n M K where
  annihilates_iff y := by
    have hweigh : ∀ i, 1 ≤ i → i ≤ m →
        s.1.values.weigh (n + m) i (Values.below n y) = K.weigh n i y := by
      intro i hi him
      rw [Values.weigh_below]
      exact sum_congr rfl fun j hj => by
        rw [hrows i hi him j (Nat.le_of_lt_succ (mem_range.mp hj))]
    rw [← Values.annihilates_artificial_iff, hs.equivalent.annihilates_iff]
    exact ⟨fun h i hi him => (hweigh i hi him).symm.trans (h i hi him),
      fun h i hi him => (hweigh i hi him).trans (h i hi him)⟩
  weigh_cost y _ := sum_congr rfl fun j hj => by
    rw [hcost j (Nat.le_of_lt_succ (mem_range.mp hj))]

/-- Copying the solved rows back and pricing out leads to a feasible canonical state of the original
program. -/
theorem copyRows_priceOut (hs : DriveState m n (M.artificial m n) s) (hT : T.Represents m n M)
    (hcolumns : ∀ i, 1 ≤ i → i ≤ m → s.2.basic i ≤ n) :
    ∃ copied solved, Tableau.copyRows s.1 1 m T = .ok copied ∧
      Tableau.priceOut .exact s.2.inRow 1 m copied = .ok solved ∧
      PrimalState m n M (solved, s.2) := by
  rcases hT.copyRows hs.tableau (Nat.le_add_right n m) 1 m (by omega) with ⟨copied, hcopied, hK⟩
  set K : Values := fun i j => if (1 ≤ i ∧ i < 1 + m) ∧ j ≤ n then s.1.values i j else M i j with hKdef
  have hcost : ∀ j ≤ n, K 0 j = M 0 j := fun j _ => if_neg (by omega)
  have hrows : ∀ i, 1 ≤ i → i ≤ m → ∀ j ≤ n, K i j = s.1.values i j := fun i hi him j hj =>
    if_pos ⟨⟨hi, by omega⟩, hj⟩
  have hunit : K.UnitRows m n s.2.basic := by
    refine ⟨hcolumns, fun i hi him k hk hkm => ?_⟩
    rw [hrows k hk hkm _ (hcolumns i hi him)]
    exact hs.canonical.unit i hi him k hkm
  obtain ⟨solved, N, hsolved, hN, hsame, hcanonical, hequivalent⟩ :=
    hK.priceOut (fun i hi him => hs.basis.inRow hi him) hunit 1 m le_rfl (by omega)
      fun i hi hlt => by omega
  obtain rfl := hN.values
  refine ⟨copied, solved, hcopied, hsolved,
    ⟨hN, hs.basis, hcanonical, (hs.equivalent_of_rows hcost hrows).trans hequivalent⟩, ?_⟩
  intro i hi him
  show 0 ≤ solved.values i 0
  rw [hsame i hi, hrows i hi him 0 (Nat.zero_le n)]
  exact hs.rhs_nonneg i hi him

end DriveState

/-! ## Phase one -/

/-- What the answer of phase one says about the program and its state. -/
def PhaseOneAnswer (m n : ℕ) (M : Values) (run : Run (Except SolveError Feasibility)) : Prop :=
  match run.result with
  | .ok .feasible =>
      PrimalState m n M (run.tableau, run.basis) ∧ BasicPos m (run.tableau, run.basis)
  | .ok .infeasible => ∀ x, Nonneg n x → ¬M.Satisfies m n x
  | .error (.notFullRank _) => (∃ x, Nonneg n x ∧ M.Satisfies m n x) ∧ M.Dependent m n
  | .error _ => False

/-- Phase one ends, and its answer is right. -/
theorem Tableau.Represents.phaseOne (hT : T.Represents m n M) (B : Basis) :
    ∃ run, Ends (fun budget => T.phaseOne .exact budget B) run ∧ PhaseOneAnswer m n M run := by
  rcases hT.artificialStart with ⟨start, priced, hstart, hpriced, hP, hpos, hrows⟩
  rcases primalSimplex_artificial hP hpos with
    ⟨inner, hinner, hresult, hlast, hlastPos, hverdict⟩
  have hresidual : inner.tableau.objectiveValue .exact = .ok (ofRat (-inner.tableau.values 0 0)) :=
    hlast.tableau.objectiveValue
  -- The least cost of the artificial program is the negated corner; there is a feasible point if it is zero.
  by_cases hcorner : inner.tableau.values 0 0 = 0
  · have hd : DriveState m n (M.artificial m n) (inner.tableau, inner.basis) :=
      ⟨hlast, hlastPos, fun i hi him => artificial_zero_of_corner hlast hlastPos hcorner hi him⟩
    obtain ⟨d, dependent, hdrive, hd', hend⟩ := hd.driveOut 1 m
      ⟨inner.tableau, inner.basis, .started .phaseOne :: inner.events⟩ le_rfl (by omega)
      fun i hi hlt => by omega
    cases dependent with
    | some t =>
        refine ⟨⟨.error (.notFullRank t), T, B, d.events⟩, ?_, ⟨_, hd'.satisfies⟩,
          hd'.dependent hP.toCanonicalState (fun i => artificialBasis_basic hT) hrows hend⟩
        refine (Ends.of_ok fun _ => hstart).bind ((Ends.of_ok fun _ => hpriced).bind
          (hinner.bind (Ends.of_ok fun _ => ?_)))
        simp [hresidual, hresult, hcorner, hT.constraints, hT.columns, hdrive, bind, Except.bind, pure,
          Except.pure]
    | none =>
        rcases hd'.copyRows_priceOut hT hend with ⟨copied, solved, hcopied, hsolved, hstate⟩
        refine ⟨⟨.ok .feasible, solved, d.basis, d.events ++
          [.finished .phaseOne .feasible (some (ofRat (-solved.values 0 0)))]⟩, ?_, hstate, hd'.basic_pos⟩
        refine (Ends.of_ok fun _ => hstart).bind ((Ends.of_ok fun _ => hpriced).bind
          (hinner.bind (Ends.of_ok fun _ => ?_)))
        have hobjective : solved.objectiveValue .exact = .ok (ofRat (-solved.values 0 0)) :=
          hstate.tableau.objectiveValue
        simp [hresidual, hresult, hcorner, hT.constraints, hT.columns, hdrive, hcopied, hsolved,
          hobjective, bind, Except.bind, pure, Except.pure]
  · refine ⟨⟨.ok .infeasible, T, B, .started .phaseOne :: inner.events ++
      [.finished .phaseOne .infeasible none]⟩, ?_,
      fun x hx => infeasible_of_corner_ne_zero hlast hlastPos hverdict hcorner hx⟩
    refine (Ends.of_ok fun _ => hstart).bind ((Ends.of_ok fun _ => hpriced).bind
      (hinner.bind (Ends.of_ok fun _ => ?_)))
    simp [hresidual, hcorner, bind, Except.bind, pure, Except.pure]

/-- Phase one has only one answer, whatever its budget was. -/
theorem Tableau.Represents.of_phaseOne (hT : T.Represents m n M) {budget : ℕ} {B : Basis}
    {run : Run (Except SolveError Feasibility)} (h : T.phaseOne .exact budget B = .ok run) :
    PhaseOneAnswer m n M run := by
  rcases hT.phaseOne B with ⟨run', hends, hanswer⟩
  obtain rfl := hends.eq_of_eq_ok h
  exact hanswer

end ExactSimplex
