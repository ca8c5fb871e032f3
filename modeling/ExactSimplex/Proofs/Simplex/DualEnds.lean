import ExactSimplex.Proofs.Simplex.Dual

/-!
# The dual simplex method ends

In a cycle the objective value would be constant, so every pivot would be in a column of reduced cost
zero and the objective row would stay the same.  Take the last variable that enters in the cycle, a
state in which it leaves and the one in which it enters.  The right-hand side of the row in which it
enters, computed in both states, gives a variable that one of the two choices had to prefer.

Main results:

- Theorem {lit}`DualPivot.not_last`: the contradiction between the two states.
- Theorem {lit}`dualMethod_neverReturns`: no set of basic columns is visited twice.
- Theorem {lit}`dualSimplex_ends`: the method ends from every canonical basis with nonnegative reduced
  costs.
-/

namespace ExactSimplex

open Finset

variable {m n : ℕ} {M : Values} {s s' : State}

/-! ## No cycle -/

/-- The last variable that enters in a cycle cannot enter: let it leave in row `t` of `s` and enter in
row `r` of `s'`. -/
theorem DualPivot.not_last (hs : CanonicalState m n M s) (hs' : CanonicalState m n M s')
    {h t r : ℕ} (hout : DualPivot m n s.1.values s.2.basic h t)
    (hin : DualPivot m n s'.1.values s'.2.basic (s.2.basic t) r)
    (hcosts : s'.1.values 0 = s.1.values 0)
    (hleaving : s'.2.basic r ≤ s.2.basic t)
    (hlast : ∀ i, 1 ≤ i → i ≤ m → s.2.basic i ∉ basicColumns s' →
      1 ≤ s.2.basic i ∧ s.2.basic i ≤ s.2.basic t) : False := by
  have hlastIn : s.2.basic t ∉ basicColumns s' := hs'.not_mem_of_entry_neg hin.row_le hin.entry
  -- The right-hand side of row `r` is a combination of those of the rows of `s`.
  have hsum := (hs'.equivalent.symm.trans hs.equivalent).row_eq hs.canonical hin.row_pos hin.row_le
    (Nat.zero_le n)
  have hnegative : ∑ i ∈ Icc 1 m, s.1.values i 0 * s'.1.values r (s.2.basic i) < 0 := by
    rw [← hsum]
    exact hin.rhs
  obtain ⟨i, hi, hterm⟩ := exists_lt_of_sum_lt (s := Icc 1 m)
    (g := fun _ => (0 : ℚ)) (by simpa using hnegative)
  rcases mem_Icc.mp hi with ⟨hi, him⟩
  by_cases hsame : s'.2.basic r = s.2.basic i
  · -- The variable of row `i` leaves in `s'`, and it comes before the last one.
    rw [← hsame, hs'.canonical.unit r hin.row_pos hin.row_le r hin.row_le, if_pos rfl, mul_one] at hterm
    have hle := hout.least i hi him hterm
    have heq : s'.2.basic r = s.2.basic t := by omega
    exact hlastIn (heq ▸ hs'.basic_mem hin.row_pos hin.row_le)
  · have hne : s'.1.values r (s.2.basic i) ≠ 0 := by
      intro hzero
      rw [hzero, mul_zero] at hterm
      exact lt_irrefl _ hterm
    rcases hlast i hi him (hs'.not_mem_of_entry hin.row_le hsame hne) with ⟨hpos, hle⟩
    rcases hle.lt_or_eq with hbefore | heq
    · -- It enters before the last variable does, because its ratio is zero as well.
      have hrhs : 0 ≤ s.1.values i 0 := by
        by_contra hneg
        exact absurd (hout.least i hi him (not_le.mp hneg)) (not_le.mpr hbefore)
      have hentry : s'.1.values r (s.2.basic i) < 0 := by
        by_contra hnonneg
        exact absurd hterm (not_lt.mpr (mul_nonneg hrhs (not_lt.mp hnonneg)))
      have hratio := hin.first _ hpos hbefore hentry
      have hzero : dualRatio s'.1.values r (s.2.basic i) = 0 := by
        rw [dualRatio, hcosts, hs.cost_eq_zero (hs.basic_mem hi him), zero_div, abs_zero]
      rw [hzero] at hratio
      exact absurd hratio (not_lt.mpr (abs_nonneg _))
    · -- It is the last variable itself, and the signs do not fit.
      obtain rfl : i = t := hs.canonical.basic_injective hi him hout.row_pos hout.row_le heq
      exact absurd hterm (not_lt.mpr (mul_nonneg_of_nonpos_of_nonpos hout.rhs.le hin.entry.le))

/-- The dual method never returns to a set of basic columns. -/
theorem dualMethod_neverReturns (m n : ℕ) (M : Values) :
    NeverReturns .exact (dualMethod m n M).rule (dualMethod m n M).ready := by
  intro states q hq hready hsteps hclosed
  have hcanonical : ∀ k ≤ q, CanonicalState m n M (states k) := fun k hk =>
    (hready k hk).toCanonicalState
  rcases (dualMethod m n M).exists_pivots hready hsteps with ⟨h, t, hpivots⟩
  have hcycle := (dualMethod m n M).cycle hready hpivots hclosed
  have hdual := fun k hk => (hpivots k hk).1
  have hex := fun k hk => (hpivots k hk).2
  have hratio : ∀ k, k < q →
      0 < (states k).1.values (t k) 0 / (states k).1.values (t k) (h k) := fun k hk =>
    div_pos_of_neg_of_neg (hdual k hk).rhs (hdual k hk).entry
  -- The objective value is the same at both ends, so it never changes and no pivot has a cost.
  have hfree : ∀ k, k < q → (states k).1.values 0 (h k) = 0 := by
    intro k hk
    have hzero := eq_zero_of_nonneg (f := fun k => (states k).1.values 0 0)
      (fun k hk => (hex k hk).cost (hdual k hk).row_pos 0)
      ((hcanonical 0 hq.le).corner_eq (hcanonical q le_rfl) hclosed)
      (fun k hk => mul_nonneg ((hready k hk.le).cost_nonneg _ (hdual k hk).column_pos
        (hdual k hk).column_le) (hratio k hk).le) hk
    exact (mul_eq_zero.mp hzero).resolve_right (hratio k hk).ne'
  have hcosts : ∀ k ≤ q, (states k).1.values 0 = (states 0).1.values 0 :=
    eq_start_of_succ_eq fun k hk => by
      funext j
      rw [(hex k hk).cost (hdual k hk).row_pos, hfree k hk, zero_mul, sub_zero]
  rcases hcycle.exists_last hq with ⟨a, b, ha, hb, heq, hmax⟩
  refine DualPivot.not_last (hcanonical b hb.le) (hcanonical a ha.le) (hdual b hb)
    (heq ▸ hdual a ha) ((hcosts a ha.le).trans (hcosts b hb.le).symm) ?_ ?_
  · rcases hcycle.exists_enters_of_leaves ha with ⟨k, hk, hka⟩
    rw [← hka, heq]
    exact hmax k hk
  · intro i hi him hnot
    obtain ⟨k, hk, hki⟩ :=
      hcycle.exists_enters hb.le ha.le ((hcanonical b hb.le).basic_mem hi him) hnot
    rw [← hki, heq]
    exact ⟨(hdual k hk).column_pos, hmax k hk⟩

/-! ## The method -/

/-- From a well formed tableau with a canonical basis and nonnegative reduced costs the dual method ends,
whatever the signs of the right-hand sides.  Every pivot on its way is in the row of least basic variable
and the first column of least ratio, and no set of basic columns is visited twice. -/
theorem dualSimplex_ends {T : Tableau} {B : Basis} (hT : T.WellFormed)
    (hB : T.isCanonical .exact B = .ok true)
    (hcosts : ∀ j, 1 ≤ j → j ≤ T.columns → 0 ≤ T.values 0 j) :
    ∃ run, Ends (fun budget => T.dualSimplex .exact budget B) run ∧
      Trajectory .exact (Tableau.dualRule .exact) (T, B) run ∧
      ((snapshots run.events).map basicColumns).Nodup ∧
      ∀ s ∈ snapshots run.events, ∀ h t,
        Tableau.dualRule .exact s.1 s.2 = .ok (.pivot h t) →
          DualPivot T.constraints T.columns s.1.values s.2.basic h t := by
  have hs : DualState T.constraints T.columns T.values (T, B) := ⟨hT.canonicalState hB, hcosts⟩
  exact (dualMethod _ _ _).ends_on_trajectory (dualMethod_neverReturns _ _ _) hs .dual

/-- A tableau whose reduced costs are all zero, so that every dual ratio test ends in a tie. -/
def costless : Tableau where
  columns := 4
  constraints := 2
  entries := #[⟨0, 1⟩, ⟨0, 1⟩, ⟨0, 1⟩, ⟨0, 1⟩, ⟨0, 1⟩,
    ⟨-1, 1⟩, ⟨1, 1⟩, ⟨0, 1⟩, ⟨-1, 2⟩, ⟨-2, 1⟩,
    ⟨-2, 1⟩, ⟨0, 1⟩, ⟨1, 1⟩, ⟨1, 3⟩, ⟨-1, 1⟩]

/-- Without costs all ratios are equal, and the method ends nevertheless. -/
theorem dualSimplex_ends_costless :
    ∃ run, Ends (fun budget => costless.dualSimplex .exact budget ⟨[1, 2]⟩) run ∧
      ((snapshots run.events).map basicColumns).Nodup := by
  obtain ⟨run, hrun, -, hnodup, -⟩ := dualSimplex_ends (T := costless) (B := ⟨[1, 2]⟩)
    (by decide) (by decide) (by decide +kernel)
  exact ⟨run, hrun, hnodup⟩

end ExactSimplex
