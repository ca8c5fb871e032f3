import ExactSimplex.Proofs.Simplex.Frames
import ExactSimplex.Proofs.Tableau.Canonical
import Mathlib.Data.Fintype.Powerset
import Mathlib.Data.List.Chain
import Mathlib.Data.Set.Finite.Basic
import Mathlib.Order.WellFounded

/-!
# Trajectories of a rule

A run of a rule is the trajectory of states that its iterations show, each reached from the one before
by a pivot of the rule, up to a state in which the rule stops.  If no trajectory of ready states comes
back to a set of basic columns, the run ends and visits pairwise different sets.

Main results:

- Theorem {lit}`runRule_trajectory`: the snapshots of a run are a trajectory to its end.
- Theorem {lit}`runRule_ends`: a run ends if there is no infinite trajectory.
- Theorem {lit}`acc_of_neverReturns`: there is none if no set of basic columns is visited twice.
-/

namespace ExactSimplex

/-- A tableau with its basis. -/
abbrev State := Tableau × Basis

/-- The rule asks for a pivot that leads from one state to the other. -/
def PivotStep (A : Arithmetic) (rule : Rule) (s s' : State) : Prop :=
  ∃ column row leaving element, rule s.1 s.2 = .ok (.pivot column row) ∧
    takePivot A s.1 s.2 column row = .ok (s'.1, s'.2, leaving, element)

/-- The states that the iterations among some events show. -/
def snapshots : List Event → List State
  | [] => []
  | .iteration _ _ T B :: rest => (T, B) :: snapshots rest
  | _ :: rest => snapshots rest

/-- The states that two sequences report are those of both. -/
theorem snapshots_append (first second : List Event) :
    snapshots (first ++ second) = snapshots first ++ snapshots second := by
  induction first with
  | nil => rfl
  | cons event rest ih => cases event <;> simp [snapshots, ih]

/-- The snapshots of a run are a trajectory of the rule from a state to one in which it stops. -/
structure Trajectory (A : Arithmetic) (rule : Rule) (s : State) (run : Run SimplexStatus) : Prop where
  start : (snapshots run.events).head? = some s
  steps : (snapshots run.events).IsChain (PivotStep A rule)
  finish : (snapshots run.events).getLast? = some (run.tableau, run.basis)
  stops : rule run.tableau run.basis = .ok (.stop run.result)

variable {A : Arithmetic} {stage : Stage} {rule : Rule}

/-- The snapshots of a run are a trajectory to its end, by induction on the budget. -/
theorem runRule_trajectory {budget index : ℕ} {T : Tableau} {B : Basis} {run : Run SimplexStatus}
    (h : runRule A stage rule budget index T B = .ok run) : Trajectory A rule (T, B) run := by
  induction budget generalizing index T B run with
  | zero => cases h
  | succ budget ih =>
      rcases runRule_cases A h with ⟨status, hstop, rfl⟩ |
        ⟨column, row, T', B', leaving, element, rest, hchoice, hstep, hrest, rfl⟩
      · exact ⟨rfl, List.isChain_singleton _, rfl, hstop⟩
      · have htail := ih hrest
        -- The rest reports the state after the pivot first, so the pivot is a step between neighbours.
        obtain ⟨states, hstates⟩ : ∃ states, snapshots rest.events = (T', B') :: states := by
          cases hevents : snapshots rest.events with
          | nil => simpa [hevents] using htail.start
          | cons s states =>
              have hs := htail.start
              rw [hevents, List.head?_cons, Option.some.injEq] at hs
              exact ⟨states, by rw [hs]⟩
        have hsnapshots : snapshots (rest.after
            [.iteration stage index T B, .pivot stage column leaving element]).events =
            (T, B) :: (T', B') :: states := by
          simp [Run.after, snapshots, hstates]
        have hsteps := htail.steps
        have hfinish := htail.finish
        rw [hstates] at hsteps hfinish
        refine ⟨?_, ?_, ?_, htail.stops⟩
        · rw [hsnapshots]
          rfl
        · rw [hsnapshots, List.isChain_cons_cons]
          exact ⟨⟨column, row, leaving, element, hchoice, hstep⟩, hsteps⟩
        · rw [hsnapshots, List.getLast?_cons_cons]
          exact hfinish

/-- The framing events of a stage show no state. -/
theorem runStage_trajectory {budget : ℕ} {T : Tableau} {B : Basis} {run : Run SimplexStatus}
    (h : runStage A stage rule budget T B = .ok run) : Trajectory A rule (T, B) run := by
  rcases runStage_frame h with ⟨inner, objective, hinner, -, rfl⟩
  rcases runRule_trajectory hinner with ⟨hstart, hsteps, hfinish, hstops⟩
  have hsnapshots : snapshots (.started stage :: inner.events ++
      [.finished stage inner.result.outcome objective]) = snapshots inner.events := by
    simp [snapshots_append, snapshots]
  exact ⟨by rw [hsnapshots]; exact hstart, by rw [hsnapshots]; exact hsteps,
    by rw [hsnapshots]; exact hfinish, hstops⟩

/-! ## Invariants -/

/-- From every ready state the rule stops or pivots to a ready state. -/
def Progresses (A : Arithmetic) (rule : Rule) (ready : State → Prop) : Prop :=
  ∀ s, ready s → (∃ status, rule s.1 s.2 = .ok (.stop status)) ∨
    ∃ s', PivotStep A rule s s' ∧ ready s'

/-- A state has at most one successor. -/
theorem PivotStep.unique {s s₁ s₂ : State} (h₁ : PivotStep A rule s s₁)
    (h₂ : PivotStep A rule s s₂) : s₁ = s₂ := by
  rcases h₁ with ⟨column, row, leaving, element, hrule, hpivot⟩
  rcases h₂ with ⟨column', row', leaving', element', hrule', hpivot'⟩
  rw [hrule, Except.ok.injEq, Choice.pivot.injEq] at hrule'
  rcases hrule' with ⟨rfl, rfl⟩
  rw [hpivot, Except.ok.injEq, Prod.mk.injEq, Prod.mk.injEq] at hpivot'
  exact Prod.ext hpivot'.1 hpivot'.2.1

/-- A pivot of the rule leads from a ready state to a ready one. -/
theorem Progresses.ready_of_step {ready : State → Prop} (hprogress : Progresses A rule ready)
    {s s' : State} (hs : ready s) (hstep : PivotStep A rule s s') : ready s' := by
  rcases hprogress s hs with ⟨status, hstop⟩ | ⟨s'', hstep', hready⟩
  · rcases hstep with ⟨column, row, leaving, element, hrule, -⟩
    rw [hstop] at hrule
    cases hrule
  · rwa [hstep.unique hstep']

/-- What holds of the first state and is kept by every pivot of the rule holds of every state. -/
theorem Trajectory.forall_of_step {p : State → Prop} {s : State} {run : Run SimplexStatus}
    (h : Trajectory A rule s run) (hstep : ∀ s s', p s → PivotStep A rule s s' → p s') (hs : p s) :
    ∀ s' ∈ snapshots run.events, p s' := by
  refine h.steps.induction p _ (fun x y hxy hx => hstep x y hx hxy) fun hne => ?_
  have hhead := List.head?_eq_some_head hne
  rw [h.start, Option.some.injEq] at hhead
  rwa [← hhead]

/-- All states of a run are ready if the first one is. -/
theorem Trajectory.ready_of_mem {ready : State → Prop} {s : State} {run : Run SimplexStatus}
    (h : Trajectory A rule s run) (hprogress : Progresses A rule ready) (hs : ready s) {s' : State}
    (hs' : s' ∈ snapshots run.events) : ready s' :=
  h.forall_of_step (fun _ _ hx hstep => hprogress.ready_of_step hx hstep) hs s' hs'

theorem Trajectory.ready_finish {ready : State → Prop} {s : State} {run : Run SimplexStatus}
    (h : Trajectory A rule s run) (hprogress : Progresses A rule ready) (hs : ready s) :
    ready (run.tableau, run.basis) :=
  h.ready_of_mem hprogress hs (List.mem_of_getLast? h.finish)

/-- A transitive relation that holds over every pivot from a ready state holds from every state of a
trajectory to all later ones. -/
theorem Trajectory.pairwise {ready : State → Prop} {r : State → State → Prop} {s : State}
    {run : Run SimplexStatus} (h : Trajectory A rule s run) (hprogress : Progresses A rule ready)
    (hs : ready s) (htrans : ∀ a b c, r a b → r b c → r a c)
    (hstep : ∀ a b, ready a → PivotStep A rule a b → r a b) :
    (snapshots run.events).Pairwise r := by
  have : Trans r r r := ⟨fun hab hbc => htrans _ _ _ hab hbc⟩
  refine List.isChain_iff_pairwise.mp (h.steps.imp_of_mem_imp fun a b ha _ hab => ?_)
  exact hstep a b (h.ready_of_mem hprogress hs ha) hab

/-! ## Termination -/

/-- A run from a ready state ends if there is no infinite trajectory, by induction on
accessibility. -/
theorem runRule_ends {ready : State → Prop} (hprogress : Progresses A rule ready) {s : State}
    (hacc : Acc (fun s' s => PivotStep A rule s s') s) (hs : ready s) (stage : Stage) (index : ℕ) :
    ∃ run, Ends (fun budget => runRule A stage rule budget index s.1 s.2) run := by
  induction hacc generalizing index with
  | intro s _ ih =>
      rcases hprogress s hs with ⟨status, hstop⟩ | ⟨s', hstep, hs'⟩
      · refine ⟨⟨status, s.1, s.2, [.iteration stage index s.1 s.2]⟩, 1, fun budget => ?_⟩
        cases budget with
        | zero => rfl
        | succ budget =>
            rw [if_neg (by omega)]
            exact runRule_of_stop A hstop budget index
      · rcases ih s' hstep hs' (index + 1) with ⟨run, hrun⟩
        rcases hstep with ⟨column, row, leaving, element, hrule, hpivot⟩
        refine ⟨run.after [.iteration stage index s.1 s.2, .pivot stage column leaving element],
          hrun.succ rfl fun budget => ?_⟩
        rw [runRule, hrule]
        simp only [bind, Except.bind, hpivot]
        rfl

/-- A stage ends when its run does; only the objective value of its end has to be shown. -/
theorem runStage_ends {ready : State → Prop} (hprogress : Progresses A rule ready) {T : Tableau}
    {B : Basis} (hacc : Acc (fun s' s => PivotStep A rule s s') (T, B)) (hs : ready (T, B))
    (hobjective : ∀ s, ready s → ∃ value, s.1.objectiveValue A = .ok value) :
    ∃ run, Ends (fun budget => runStage A stage rule budget T B) run := by
  rcases runRule_ends hprogress hacc hs stage 0 with ⟨inner, hinner⟩
  rcases hinner.exists_eq_ok with ⟨budget, hbudget⟩
  rcases hobjective _ ((runRule_trajectory hbudget).ready_finish hprogress hs) with ⟨value, hvalue⟩
  refine ⟨{ inner with events := .started stage :: inner.events ++ [.finished stage
    inner.result.outcome (if inner.result = .optimal then some value else none)] },
    hinner.bind (.of_ok fun budget => ?_)⟩
  cases hresult : inner.result with
  | optimal => simp [hvalue, bind, Except.bind, pure, Except.pure, Functor.map, Except.map]
  | unbounded => simp [bind, Except.bind, pure, Except.pure]

/-- The set of basic columns of a state. -/
def basicColumns (s : State) : Finset ℕ := s.2.columns.toFinset

/-- No trajectory of ready states comes back to a set of basic columns. -/
def NeverReturns (A : Arithmetic) (rule : Rule) (ready : State → Prop) : Prop :=
  ∀ (s : ℕ → State) (q : ℕ), 0 < q → (∀ k ≤ q, ready (s k)) →
    (∀ k < q, PivotStep A rule (s k) (s (k + 1))) → basicColumns (s 0) ≠ basicColumns (s q)

/-- Where no set of basic columns is visited twice there is no infinite trajectory, because there are
finitely many sets. -/
theorem acc_of_neverReturns {ready : State → Prop} (hprogress : Progresses A rule ready)
    (hreturn : NeverReturns A rule ready) {n : ℕ}
    (hbound : ∀ s, ready s → basicColumns s ⊆ Finset.range (n + 1)) {s : State} (hs : ready s) :
    Acc (fun s' s => PivotStep A rule s s') s := by
  rw [acc_iff_isEmpty_descending_chain]
  refine ⟨fun ⟨states, hstart, hsteps⟩ => ?_⟩
  have hready : ∀ k, ready (states k) := by
    intro k
    induction k with
    | zero => rwa [hstart]
    | succ k ih => exact hprogress.ready_of_step ih (hsteps k)
  -- Infinitely many steps and finitely many sets: two steps have the same set.
  obtain ⟨p, q, hne, hsame⟩ := Finite.exists_ne_map_eq_of_infinite fun k =>
    (⟨basicColumns (states k), Finset.mem_powerset.mpr (hbound _ (hready k))⟩ :
      (Finset.range (n + 1)).powerset)
  have hsets : basicColumns (states p) = basicColumns (states q) := congrArg Subtype.val hsame
  have hcycle : ∀ p q, p < q → basicColumns (states p) ≠ basicColumns (states q) := by
    intro p q hpq
    have := hreturn (fun k => states (p + k)) (q - p) (by omega) (fun k _ => hready _)
      fun k _ => hsteps (p + k)
    simpa [Nat.add_sub_cancel' hpq.le] using this
  rcases Nat.lt_or_gt_of_ne hne with hpq | hqp
  · exact hcycle p q hpq hsets
  · exact hcycle q p hqp hsets.symm

/-- The sets of basic columns along a trajectory are pairwise different. -/
theorem Trajectory.nodup_basicColumns {ready : State → Prop} {s : State} {run : Run SimplexStatus}
    (h : Trajectory A rule s run) (hprogress : Progresses A rule ready)
    (hreturn : NeverReturns A rule ready) (hs : ready s) :
    ((snapshots run.events).map basicColumns).Nodup := by
  have hready : ∀ s' ∈ snapshots run.events, ready s' := fun _ => h.ready_of_mem hprogress hs
  have hchain := List.isChain_iff_getElem.mp h.steps
  set states := snapshots run.events
  refine List.pairwise_map.mpr (List.pairwise_iff_getElem.mpr fun i j hi hj hij => ?_)
  have := hreturn (fun k => states[i + k]?.getD s) (j - i) (by omega) ?_ ?_
  · have hlast : i + (j - i) = j := by omega
    simpa [hlast, hi, hj] using this
  · intro k hk
    have hlt : i + k < states.length := by omega
    simpa [hlt] using hready _ (List.getElem_mem hlt)
  · intro k hk
    have hlt : i + k + 1 < states.length := by omega
    have hlt' : i + k < states.length := by omega
    simpa [← Nat.add_assoc, hlt, hlt'] using hchain (i + k) hlt

end ExactSimplex
