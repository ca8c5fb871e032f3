import ExactSimplex.Proofs.Simplex.Exchange

/-!
# Pivoting methods

The primal and the dual method share everything but their invariant, their choice of a pivot and their
verdicts.  A pivoting method bundles these with what they owe each other; what follows for its runs is
proved once.

Main results:

- Theorem {lit}`PivotMethod.progresses`: the rule of a method never fails in a ready state.
- Theorem {lit}`PivotMethod.cycle`: a trajectory that comes back is a cycle of exchanges.
- Theorem {lit}`PivotMethod.ends`: a method that never comes back to a set of basic columns ends.
- Theorem {lit}`PivotMethod.verdict_of_run`: the last state of a run shows its answer.
-/

namespace ExactSimplex

/-- A method on the canonical states of the program `M`.  In a ready state its rule stops with a verdict
on the numbers or asks for a pivot that it chooses; such a pivot is on a nonzero entry of a column that
is not basic, and it leads to a ready state. -/
structure PivotMethod (m n : ℕ) (M : Values) where
  rule : Rule
  ready : State → Prop
  verdict : Values → SimplexStatus → Prop
  chooses : Values → (ℕ → ℕ) → ℕ → ℕ → Prop
  canonical : ∀ {s}, ready s → CanonicalState m n M s
  decides : ∀ {s}, ready s →
    (∃ status, rule s.1 s.2 = .ok (.stop status) ∧ verdict s.1.values status) ∨
      ∃ h t, rule s.1 s.2 = .ok (.pivot h t) ∧ chooses s.1.values s.2.basic h t
  column_pos : ∀ {N β h t}, chooses N β h t → 1 ≤ h
  column_le : ∀ {N β h t}, chooses N β h t → h ≤ n
  row_pos : ∀ {N β h t}, chooses N β h t → 1 ≤ t
  row_le : ∀ {N β h t}, chooses N β h t → t ≤ m
  entry_ne : ∀ {N β h t}, chooses N β h t → N t h ≠ 0
  not_basic : ∀ {s h t}, ready s → chooses s.1.values s.2.basic h t → h ∉ basicColumns s
  keeps : ∀ {s s' h t}, ready s → chooses s.1.values s.2.basic h t → CanonicalState m n M s' →
    Exchange s s' h t → ready s'

namespace PivotMethod

variable {m n : ℕ} {M : Values} (P : PivotMethod m n M) {s s' : State}

/-! ## Steps -/

/-- Where the rule stops, its verdict is right. -/
theorem verdict_of_stop (hs : P.ready s) {status : SimplexStatus}
    (hstop : P.rule s.1 s.2 = .ok (.stop status)) : P.verdict s.1.values status := by
  rcases P.decides hs with ⟨status', hrule, hverdict⟩ | ⟨h, t, hrule, -⟩
  · rw [hrule, Except.ok.injEq, Choice.stop.injEq] at hstop
    rwa [← hstop]
  · rw [hrule] at hstop
    cases hstop

/-- Where the rule pivots, it has chosen as the method says. -/
theorem chooses_of_pivot (hs : P.ready s) {h t : ℕ}
    (hpivot : P.rule s.1 s.2 = .ok (.pivot h t)) : P.chooses s.1.values s.2.basic h t := by
  rcases P.decides hs with ⟨status, hrule, -⟩ | ⟨h', t', hrule, hchooses⟩
  · rw [hrule] at hpivot
    cases hpivot
  · rw [hrule, Except.ok.injEq, Choice.pivot.injEq] at hpivot
    rcases hpivot with ⟨rfl, rfl⟩
    exact hchooses

/-- A pivot that the method asks for never fails and leads to a ready state. -/
theorem exists_step (hs : P.ready s) {h t : ℕ} (hpivot : P.rule s.1 s.2 = .ok (.pivot h t)) :
    ∃ s', PivotStep .exact P.rule s s' ∧ Exchange s s' h t ∧ P.ready s' := by
  have hchooses := P.chooses_of_pivot hs hpivot
  obtain ⟨s', leaving, element, htake, hs', hex⟩ := (P.canonical hs).takePivot
    (P.column_le hchooses) (P.row_pos hchooses) (P.row_le hchooses) (P.entry_ne hchooses)
  exact ⟨s', ⟨h, t, leaving, element, hpivot, htake⟩, hex, P.keeps hs hchooses hs' hex⟩

/-- A step of the method is a pivot that it chooses. -/
theorem exchange_of_step (hs : P.ready s) (hstep : PivotStep .exact P.rule s s') :
    ∃ h t, P.chooses s.1.values s.2.basic h t ∧ Exchange s s' h t := by
  have ⟨h, t, _, _, hpivot, _⟩ := hstep
  rcases P.exists_step hs hpivot with ⟨s'', hstep', hex, -⟩
  rw [hstep'.unique hstep] at hex
  exact ⟨h, t, P.chooses_of_pivot hs hpivot, hex⟩

/-- The rule stops or leads from a ready state to a ready one. -/
theorem progresses : Progresses .exact P.rule P.ready := by
  intro s hs
  rcases P.decides hs with ⟨status, hstop, -⟩ | ⟨h, t, hpivot, -⟩
  · exact Or.inl ⟨status, hstop⟩
  · rcases P.exists_step hs hpivot with ⟨s', hstep, -, hs'⟩
    exact Or.inr ⟨s', hstep, hs'⟩

/-- A pivot makes a variable basic, never the right-hand side. -/
theorem progresses_basicPos : Progresses .exact P.rule fun s => P.ready s ∧ BasicPos m s := by
  intro s hs
  rcases P.progresses s hs.1 with hstop | ⟨s', hstep, hs'⟩
  · exact Or.inl hstop
  · rcases P.exchange_of_step hs.1 hstep with ⟨h, t, hchooses, hex⟩
    exact Or.inr ⟨s', hstep, hs', hs.2.exchange hex (P.column_pos hchooses)⟩

/-! ## Trajectories -/

/-- The pivots of a trajectory by their number. -/
theorem exists_pivots {states : ℕ → State} {q : ℕ} (hready : ∀ k ≤ q, P.ready (states k))
    (hsteps : ∀ k < q, PivotStep .exact P.rule (states k) (states (k + 1))) :
    ∃ h t : ℕ → ℕ, ∀ k < q, P.chooses (states k).1.values (states k).2.basic (h k) (t k) ∧
      Exchange (states k) (states (k + 1)) (h k) (t k) := by
  have hpivots : ∀ k, ∃ h t, k < q → P.chooses (states k).1.values (states k).2.basic h t ∧
      Exchange (states k) (states (k + 1)) h t := by
    intro k
    by_cases hk : k < q
    · rcases P.exchange_of_step (hready k hk.le) (hsteps k hk) with ⟨h, t, hchooses, hex⟩
      exact ⟨h, t, fun _ => ⟨hchooses, hex⟩⟩
    · exact ⟨0, 0, fun hk' => absurd hk' hk⟩
  choose h t hpivots using hpivots
  exact ⟨h, t, hpivots⟩

/-- Pivots that lead back to the same set of basic columns are a cycle of exchanges. -/
theorem cycle {states : ℕ → State} {q : ℕ} {h t : ℕ → ℕ} (hready : ∀ k ≤ q, P.ready (states k))
    (hpivots : ∀ k < q, P.chooses (states k).1.values (states k).2.basic (h k) (t k) ∧
      Exchange (states k) (states (k + 1)) (h k) (t k))
    (hclosed : basicColumns (states 0) = basicColumns (states q)) :
    Cycle (fun k => basicColumns (states k)) q h (fun k => (states k).2.basic (t k)) where
  enters k hk := P.not_basic (hready k hk.le) (hpivots k hk).1
  leaves k hk :=
    (P.canonical (hready k hk.le)).basic_mem (P.row_pos (hpivots k hk).1) (P.row_le (hpivots k hk).1)
  step k hk :=
    (P.canonical (hready k hk.le)).basicColumns_exchange (P.canonical (hready (k + 1) hk))
      (P.row_pos (hpivots k hk).1) (P.row_le (hpivots k hk).1) (hpivots k hk).2
  closed := hclosed

/-! ## Runs -/

variable {stage : Stage} {T : Tableau} {B : Basis}

/-- A method that never comes back to a set of basic columns ends. -/
theorem ends (hreturn : NeverReturns .exact P.rule P.ready) (hs : P.ready (T, B)) (stage : Stage) :
    ∃ run, Ends (fun budget => runStage .exact stage P.rule budget T B) run := by
  have hacc := acc_of_neverReturns P.progresses hreturn
    (fun s hs => (P.canonical hs).basicColumns_subset) hs
  exact runStage_ends P.progresses hacc hs fun s hs => ⟨_, (P.canonical hs).tableau.objectiveValue⟩

/-- The last state of a run is ready and shows the answer. -/
theorem verdict_of_run (hs : P.ready (T, B)) {budget : ℕ} {run : Run SimplexStatus}
    (hrun : runStage .exact stage P.rule budget T B = .ok run) :
    P.ready (run.tableau, run.basis) ∧ P.verdict run.tableau.values run.result := by
  have htrajectory := runStage_trajectory hrun
  have hlast := htrajectory.ready_finish P.progresses hs
  exact ⟨hlast, P.verdict_of_stop hlast htrajectory.stops⟩

/-- If no row starts with the right-hand side as its basic variable, none ends so. -/
theorem basicPos_of_run (hs : P.ready (T, B)) (hpos : BasicPos m (T, B)) {budget : ℕ}
    {run : Run SimplexStatus} (hrun : runStage .exact stage P.rule budget T B = .ok run) :
    BasicPos m (run.tableau, run.basis) :=
  ((runStage_trajectory hrun).ready_finish P.progresses_basicPos ⟨hs, hpos⟩).2

/-- A method that never comes back ends on a trajectory of its own pivots, on which no set of basic
columns is visited twice. -/
theorem ends_on_trajectory (hreturn : NeverReturns .exact P.rule P.ready) (hs : P.ready (T, B))
    (stage : Stage) :
    ∃ run, Ends (fun budget => runStage .exact stage P.rule budget T B) run ∧
      Trajectory .exact P.rule (T, B) run ∧ ((snapshots run.events).map basicColumns).Nodup ∧
      ∀ s ∈ snapshots run.events, ∀ h t, P.rule s.1 s.2 = .ok (.pivot h t) →
        P.chooses s.1.values s.2.basic h t := by
  rcases P.ends hreturn hs stage with ⟨run, hrun⟩
  rcases hrun.exists_eq_ok with ⟨budget, hbudget⟩
  have htrajectory := runStage_trajectory hbudget
  exact ⟨run, hrun, htrajectory, htrajectory.nodup_basicColumns P.progresses hreturn hs,
    fun s hmem h t => P.chooses_of_pivot (htrajectory.ready_of_mem P.progresses hs hmem)⟩

end PivotMethod
end ExactSimplex
