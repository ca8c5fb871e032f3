import ExactSimplex.Proofs.Simplex.Primal

/-!
# The primal simplex method ends

In a cycle the objective value would be constant, so every pivot would be degenerate and the basic point
would stay the same.  Take the last variable that enters in the cycle, the state in which it enters and
one in which it leaves.  The reduced cost of the column that replaces it, computed in both states, gives
a variable that Bland's rule had to prefer.

Main results:

- Theorem {lit}`BlandPivot.not_last`: the contradiction between the two states.
- Theorem {lit}`primalMethod_neverReturns`: no set of basic columns is visited twice.
- Theorem {lit}`PrimalState.exists_run`: the method ends with a verdict that its last state shows.
- Theorem {lit}`primalSimplex_ends`: the method ends from every feasible canonical basis.
-/

namespace ExactSimplex

open Finset

variable {m n : ℕ} {M : Values} {s s' : State}

/-! ## Degenerate pivots -/

/-- A pivot in a row of right-hand side zero leaves the basic point where it is. -/
theorem Exchange.basicPoint_eq {h t : ℕ} (hex : Exchange s s' h t) (hzero : s.1.values t 0 = 0) :
    s'.1.values.basicPoint m s'.2.basic = s.1.values.basicPoint m s.2.basic := by
  funext j
  simp only [Values.basicPoint, Values.scatter, hex.values, hex.basic]
  apply sum_congr rfl
  intro i _
  by_cases hit : i = t
  · subst hit
    rw [Values.pivot_self, hzero, zero_div, ite_self, ite_self]
  · rw [Function.update_of_ne hit, Values.pivot_of_ne _ h 0 hit, hzero, zero_div, mul_zero, sub_zero]

/-- A variable that is basic in one state and not in another one with the same basic point has
right-hand side zero. -/
theorem CanonicalState.rhs_eq_zero (hs : CanonicalState m n M s) (hs' : CanonicalState m n M s')
    (hpoint : s'.1.values.basicPoint m s'.2.basic = s.1.values.basicPoint m s.2.basic) {i : ℕ}
    (hi : 1 ≤ i) (him : i ≤ m) (hnot : s'.2.basic i ∉ basicColumns s) : s'.1.values i 0 = 0 := by
  have hvalue : s'.1.values.basicPoint m s'.2.basic (s'.2.basic i) = s'.1.values i 0 :=
    hs'.canonical.scatter_basic hi him _
  rw [← hvalue, hpoint]
  exact Values.scatter_of_not_mem fun k hk hkm heq => hnot (heq ▸ hs.basic_mem hk hkm)

/-! ## No cycle -/

/-- The last variable that enters in a cycle cannot leave: let it enter in `s` and leave in `s'`, where
column `h` replaces it. -/
theorem BlandPivot.not_last (hs : CanonicalState m n M s) (hs' : CanonicalState m n M s')
    {h t u : ℕ} (hin : BlandPivot m n s.1.values s.2.basic (s'.2.basic t) u)
    (hout : BlandPivot m n s'.1.values s'.2.basic h t)
    (hpoint : s'.1.values.basicPoint m s'.2.basic = s.1.values.basicPoint m s.2.basic)
    (hcolumn : h ≤ s'.2.basic t)
    (hlast : ∀ i, 1 ≤ i → i ≤ m → s'.2.basic i ∉ basicColumns s →
      1 ≤ s'.2.basic i ∧ s'.2.basic i ≤ s'.2.basic t) : False := by
  have hlt : h < s'.2.basic t := by
    apply lt_of_le_of_ne hcolumn
    intro heq
    have hcost := hout.cost
    rw [heq, hs'.cost_eq_zero (hs'.basic_mem hout.row_pos hout.row_le)] at hcost
    exact lt_irrefl _ hcost
  have hrest : 0 ≤ s.1.values 0 h := hin.first h hout.column_pos hlt
  -- Both states give the objective row the same value in the direction of column `h`.
  have hsum := (hs.equivalent.symm.trans hs'.equivalent).cost_row_eq hs'.canonical hout.column_le
  have hpositive : 0 < ∑ i ∈ Icc 1 m, s'.1.values i h * s.1.values 0 (s'.2.basic i) := by
    have := hout.cost
    linarith
  obtain ⟨i, hi, hterm⟩ := exists_lt_of_sum_lt (s := Icc 1 m)
    (f := fun _ => (0 : ℚ)) (by simpa using hpositive)
  rcases mem_Icc.mp hi with ⟨hi, him⟩
  have hnot : s'.2.basic i ∉ basicColumns s := by
    intro hmem
    rw [hs.cost_eq_zero hmem, mul_zero] at hterm
    exact lt_irrefl _ hterm
  rcases hlast i hi him hnot with ⟨hpos, hle⟩
  rcases hle.lt_or_eq with hbefore | heq
  · -- The variable of row `i` comes before the last one, so its row should have left.
    have hcost : 0 ≤ s.1.values 0 (s'.2.basic i) := hin.first _ hpos hbefore
    have hentry : 0 < s'.1.values i h := pos_of_mul_pos_left hterm hcost
    have hzero : s'.1.values i 0 = 0 := hs.rhs_eq_zero hs' hpoint hi him hnot
    have hlastOut : s'.2.basic t ∉ basicColumns s := fun hmem =>
      hin.cost.ne (hs.cost_eq_zero hmem)
    have hzero' : s'.1.values t 0 = 0 := hs.rhs_eq_zero hs' hpoint hout.row_pos hout.row_le hlastOut
    rcases hout.least i hi him hentry with hratio | ⟨-, hle⟩
    · rw [hzero, hzero', zero_div, zero_div] at hratio
      exact lt_irrefl _ hratio
    · omega
  · -- The variable of row `i` is the last one itself, and the signs do not fit.
    have hentry := hout.entry
    have hcost := hin.cost
    obtain rfl : i = t := hs'.canonical.basic_injective hi him hout.row_pos hout.row_le heq
    exact absurd hterm (not_lt.mpr (mul_nonpos_of_nonneg_of_nonpos hentry.le hcost.le))

/-- The primal method never returns to a set of basic columns. -/
theorem primalMethod_neverReturns (m n : ℕ) (M : Values) :
    NeverReturns .exact (primalMethod m n M).rule (primalMethod m n M).ready := by
  intro states q hq hready hsteps hclosed
  have hcanonical : ∀ k ≤ q, CanonicalState m n M (states k) := fun k hk =>
    (hready k hk).toCanonicalState
  rcases (primalMethod m n M).exists_pivots hready hsteps with ⟨h, t, hpivots⟩
  have hcycle := (primalMethod m n M).cycle hready hpivots hclosed
  have hbland := fun k hk => (hpivots k hk).1
  have hex := fun k hk => (hpivots k hk).2
  have hratio : ∀ k, k < q →
      0 ≤ (states k).1.values (t k) 0 / (states k).1.values (t k) (h k) := fun k hk =>
    div_nonneg ((hready k hk.le).rhs_nonneg _ (hbland k hk).row_pos (hbland k hk).row_le)
      (hbland k hk).entry.le
  -- The objective value is the same at both ends, so it never changes and every pivot is degenerate.
  have hdegenerate : ∀ k, k < q → (states k).1.values (t k) 0 = 0 := by
    intro k hk
    have hzero := eq_zero_of_nonpos (f := fun k => (states k).1.values 0 0)
      (fun k hk => (hex k hk).cost (hbland k hk).row_pos 0)
      ((hcanonical 0 hq.le).corner_eq (hcanonical q le_rfl) hclosed)
      (fun k hk => mul_nonpos_of_nonpos_of_nonneg (hbland k hk).cost.le (hratio k hk)) hk
    rw [mul_eq_zero, div_eq_zero_iff] at hzero
    rcases hzero with hcost | hrhs | hentry
    · exact absurd hcost (hbland k hk).cost.ne
    · exact hrhs
    · exact absurd hentry (hbland k hk).entry.ne'
  have hpoint : ∀ k ≤ q, (states k).1.values.basicPoint m (states k).2.basic =
      (states 0).1.values.basicPoint m (states 0).2.basic :=
    eq_start_of_succ_eq fun k hk => (hex k hk).basicPoint_eq (hdegenerate k hk)
  obtain ⟨a, b, ha, hb, heq, hmax⟩ := hcycle.exists_last hq
  refine BlandPivot.not_last (hcanonical a ha.le) (hcanonical b hb.le) (heq ▸ hbland a ha)
    (hbland b hb) ((hpoint b hb.le).trans (hpoint a ha.le).symm) (heq ▸ hmax b hb) ?_
  intro i hi him hnot
  obtain ⟨k, hk, hki⟩ :=
    hcycle.exists_enters hb.le ha.le ((hcanonical b hb.le).basic_mem hi him) hnot
  rw [← hki, heq]
  exact ⟨(hbland k hk).column_pos, hmax k hk⟩

/-! ## The method -/

/-- From a feasible state the primal method ends in a state that shows its verdict. -/
theorem PrimalState.exists_run (hs : PrimalState m n M s) (hpos : BasicPos m s) :
    ∃ run, Ends (fun budget => s.1.primalSimplex .exact budget s.2) run ∧
      PrimalState m n M (run.tableau, run.basis) ∧ BasicPos m (run.tableau, run.basis) ∧
      PrimalVerdict m n run.tableau.values run.result := by
  rcases (primalMethod m n M).ends (primalMethod_neverReturns m n M) hs .primal with ⟨run, hrun⟩
  rcases hrun.exists_eq_ok with ⟨budget, hbudget⟩
  exact ⟨run, hrun, hs.of_run hpos hbudget⟩

/-- From a well formed tableau with a canonical basis and nonnegative right-hand sides the primal method
ends.  Every pivot on its way is Bland's, and no set of basic columns is visited twice. -/
theorem primalSimplex_ends {T : Tableau} {B : Basis} (hT : T.WellFormed)
    (hB : T.isCanonical .exact B = .ok true)
    (hrhs : ∀ i, 1 ≤ i → i ≤ T.constraints → 0 ≤ T.values i 0) :
    ∃ run, Ends (fun budget => T.primalSimplex .exact budget B) run ∧
      Trajectory .exact (Tableau.primalRule .exact) (T, B) run ∧
      ((snapshots run.events).map basicColumns).Nodup ∧
      ∀ s ∈ snapshots run.events, ∀ h t,
        Tableau.primalRule .exact s.1 s.2 = .ok (.pivot h t) →
          BlandPivot T.constraints T.columns s.1.values s.2.basic h t := by
  have hs : PrimalState T.constraints T.columns T.values (T, B) := ⟨hT.canonicalState hB, hrhs⟩
  exact (primalMethod _ _ _).ends_on_trajectory (primalMethod_neverReturns _ _ _) hs .primal

/-- A degenerate tableau: the rule of the most negative reduced cost cycles on it. -/
def degenerate : Tableau where
  columns := 7
  constraints := 3
  entries := #[⟨0, 1⟩, ⟨0, 1⟩, ⟨0, 1⟩, ⟨0, 1⟩, ⟨-3, 4⟩, ⟨150, 1⟩, ⟨-1, 50⟩, ⟨6, 1⟩,
    ⟨0, 1⟩, ⟨1, 1⟩, ⟨0, 1⟩, ⟨0, 1⟩, ⟨1, 4⟩, ⟨-60, 1⟩, ⟨-1, 25⟩, ⟨9, 1⟩,
    ⟨0, 1⟩, ⟨0, 1⟩, ⟨1, 1⟩, ⟨0, 1⟩, ⟨1, 2⟩, ⟨-90, 1⟩, ⟨-1, 50⟩, ⟨3, 1⟩,
    ⟨1, 1⟩, ⟨0, 1⟩, ⟨0, 1⟩, ⟨1, 1⟩, ⟨0, 1⟩, ⟨0, 1⟩, ⟨1, 1⟩, ⟨0, 1⟩]

/-- The method ends on a program where pivots leave the objective value as it is. -/
theorem primalSimplex_ends_degenerate :
    ∃ run, Ends (fun budget => degenerate.primalSimplex .exact budget ⟨[1, 2, 3]⟩) run ∧
      ((snapshots run.events).map basicColumns).Nodup := by
  obtain ⟨run, hrun, -, hnodup, -⟩ := primalSimplex_ends (T := degenerate) (B := ⟨[1, 2, 3]⟩)
    (by decide) (by decide) (by decide +kernel)
  exact ⟨run, hrun, hnodup⟩

end ExactSimplex
