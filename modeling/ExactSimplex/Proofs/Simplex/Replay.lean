import ExactSimplex.Proofs.Simplex.Frames
import ExactSimplex.Proofs.Simplex.SoundCuts
import ExactSimplex.Proofs.Tableau.Reach

/-!
# Replay

The records of a run name variables and source rows but no pivot rows, and they carry no tableau.  They still
tell all that was done: where the basic columns are unit vectors none of them is basic in two rows, so the
leaving variable of a pivot names its row, and a cut is made again from its source row.  Replayed from the
start of the run, the records lead to its end, even where values have wrapped.

Main results:

- Theorem {lit}`Basis.mem_rowsOf`: the rows in which a variable is basic.
- Theorem {lit}`UnitState.replayRecord_pivot`: a pivot is repeated from its record.
- Theorem {lit}`StoredRule.replay_runStage`: a stage is replayed.
- Theorem {lit}`SoundState.replay_cutRounds`: the rounds of cuts are replayed.
- Theorem {lit}`Tableau.replay_run`: the primal method, the dual method and cutting planes are replayed.
-/

namespace ExactSimplex

open Calc

variable {A : Arithmetic} {stage : Stage} {rule : Rule} {T : Tableau} {B : Basis} {m n : ℕ}
  {s s' : State}

/-! ## Rows of a basic variable -/

namespace Basis

/-- The rows, counted from one, in which a variable is basic. -/
def rowsOf (B : Basis) (column : ℕ) : List ℕ := B.columns.idxsOf column 1

/-- The rows of a column are those where it is basic. -/
theorem mem_rowsOf {column row : ℕ} : row ∈ B.rowsOf column ↔ B.inRow row = .ok column := by
  unfold rowsOf
  rw [List.mem_idxsOf_iff_getElem_sub_pos]
  cases row with
  | zero => simp
  | succ index =>
      rw [inRow_succ, entry_eq_ok_iff, List.getElem?_eq_some_iff]
      simp

/-- A variable is basic in one row only if no variable occurs twice. -/
theorem rowsOf_eq_singleton (hB : B.columns.Nodup) {column row : ℕ} (h : B.inRow row = .ok column) :
    B.rowsOf column = [row] := by
  have hrow := mem_rowsOf.mpr h
  have hlength : (B.rowsOf column).length = 1 := by
    refine le_antisymm ?_ (List.length_pos_of_mem hrow)
    unfold rowsOf
    rw [List.length_idxsOf]
    exact List.nodup_iff_count_le_one.mp hB column
  rcases List.length_eq_one_iff.mp hlength with ⟨only, honly⟩
  rw [honly, List.mem_singleton] at hrow
  rw [honly, hrow]

end Basis

/-! ## Replaying records -/

variable (A) in
/-- Does to a state what a record tells.  The leaving variable of a pivot has to be basic in a single row, and
the pivot element has to be stored there; a swap of phase one is not replayed. -/
def replayRecord (s : State) : Record → Calc (Option State)
  | .pivot _ entering leaving element =>
      match s.2.rowsOf leaving with
      | [row] => do
          let stored ← s.1.get row entering
          if stored = element then do
            let T' ← s.1.pivot A entering row .all
            let B' ← s.2.enter row entering
            pure (some (T', B'))
          else pure none
      | _ => pure none
  | .cut _ source => some <$> Tableau.addCut A s.1 s.2 source
  | .degeneracy _ _ _ => pure none
  | .started _ => pure (some s)
  | .iteration _ _ => pure (some s)
  | .finished _ _ _ => pure (some s)

variable (A) in
/-- Does to a state what the records of a trace tell, in order. -/
def replay : List Record → State → Calc (Option State)
  | [], s => pure (some s)
  | record :: rest, s => do
      match ← replayRecord A s record with
      | none => pure none
      | some next => replay rest next

/-- The events lead from a state to another when their records are replayed. -/
def Leads (A : Arithmetic) (events : List Event) (s s' : State) : Prop :=
  replay A (events.map Event.record) s = .ok (some s')

namespace Leads

@[simp]
theorem nil : Leads A [] s s :=
  rfl

/-- An event is replayed first, then those that follow it. -/
theorem cons {event : Event} {rest : List Event} {next : State}
    (h : replayRecord A s event.record = .ok (some next)) (hrest : Leads A rest next s') :
    Leads A (event :: rest) s s' := by
  unfold Leads at *
  rw [List.map_cons, replay, h]
  exact hrest

/-- A stretch of events is replayed first, then those that follow it, by induction on the stretch. -/
theorem append {first second : List Event} {next : State} (h : Leads A first s next)
    (h' : Leads A second next s') : Leads A (first ++ second) s s' := by
  induction first generalizing s with
  | nil =>
      cases pure_eq_ok.mp h
      exact h'
  | cons event rest ih =>
      rcases bind_eq_ok.mp h with ⟨found, hfound, h⟩
      cases found with
      | none => cases pure_eq_ok.mp h
      | some middle => exact cons hfound (ih h)

/-- The frame of a stage does nothing. -/
theorem frame {events : List Event} {outcome : Outcome} {objective : Option Fraction}
    (h : Leads A events s s') :
    Leads A (.started stage :: events ++ [.finished stage outcome objective]) s s' :=
  append (cons rfl h) (cons rfl nil)

end Leads

/-! ## Pivots -/

/-- A pivot is repeated from its record, because only the pivot row has the leaving variable. -/
theorem UnitState.replayRecord_pivot (hs : UnitState A m n s) {h t leaving : ℕ} {element : Fraction}
    (hpivot : takePivot A s.1 s.2 h t = .ok (s'.1, s'.2, leaving, element)) :
    replayRecord A s (.pivot stage h leaving element) = .ok (some s') := by
  rcases takePivot_parts A hpivot with ⟨hleaving, helement, hU, hC⟩
  have hrow := Basis.rowsOf_eq_singleton hs.nodup hleaving
  simp [replayRecord, hrow, helement, hU, hC, bind, Except.bind, pure, Except.pure]

namespace StoredRule

/-- A run from unit vectors is replayed, by induction on the budget. -/
theorem replay_runRule (hA : A.holds 1 = true) (hrule : StoredRule A rule) {budget index : ℕ}
    {run : Run SimplexStatus} (hs : UnitState A m n (T, B))
    (h : runRule A stage rule budget index T B = .ok run) :
    Leads A run.events (T, B) (run.tableau, run.basis) := by
  induction budget generalizing index T B run with
  | zero => cases h
  | succ budget ih =>
      rcases runRule_cases A h with ⟨status, -, rfl⟩ |
        ⟨column, row, T', B', leaving, element, rest, hchoice, hpivot, hrest, rfl⟩
      · exact .cons rfl .nil
      · have hs' : UnitState A m n (T', B') :=
          hrule.unitState_of_step hA hs ⟨column, row, leaving, element, hchoice, hpivot⟩
        exact .cons rfl (.cons (hs.replayRecord_pivot hpivot) (ih hs' hrest))

/-- The records of a stage lead from its start to its end. -/
theorem replay_runStage (hA : A.holds 1 = true) (hrule : StoredRule A rule) {budget : ℕ}
    {run : Run SimplexStatus} (hs : UnitState A m n (T, B))
    (h : runStage A stage rule budget T B = .ok run) :
    Leads A run.events (T, B) (run.tableau, run.basis) := by
  rcases runStage_frame h with ⟨inner, objective, hinner, -, rfl⟩
  exact (hrule.replay_runRule hA hs hinner).frame

end StoredRule

/-! ## Cuts -/

namespace SoundState

/-- The rounds of cuts are replayed, by induction on the number of rounds that are allowed. -/
theorem replay_cutRounds (hA : A.holds 1 = true) {budget rounds round : ℕ} {run : Run IntegerStatus}
    (hs : SoundState A m n (T, B)) (h : Tableau.cutRounds A budget rounds round T B = .ok run) :
    Leads A run.events (T, B) (run.tableau, run.basis) := by
  induction rounds generalizing round m n T B run with
  | zero => cases h
  | succ rounds ih =>
      rcases Tableau.cutRounds_cases h with ⟨-, rfl⟩ | ⟨source, s', inner, hfound, hcut, hinner, hcases⟩
      · exact .nil
      · have hsource := (hs.safe_fractionalRow.of_eq_ok hfound source rfl).2
        have hs' : SoundState A (m + 1) (n + 1) s' := (hs.safe_addCut hA hsource).of_eq_ok hcut
        -- A cut is replayed from the number of its source row alone.
        have hrecord : replayRecord A (T, B) (.cut (round + 1) source) = .ok (some s') :=
          map_eq_ok.mpr ⟨_, hcut, rfl⟩
        have hdual : Leads A (.cut (round + 1) source :: inner.events) (T, B)
            (inner.tableau, inner.basis) :=
          .cons hrecord ((storedRule_dualRule hA).replay_runStage hA hs'.unitState hinner)
        rcases hcases with ⟨-, rfl⟩ | ⟨rest, -, hrest, rfl⟩
        · exact hdual
        · have hend := ((soundRule_dualRule hA).safe_runStage hA budget hs').of_eq_ok hinner
          exact hdual.append (ih hend hrest)

/-- The records of the relaxed program and its rounds lead from their start to their end. -/
theorem replay_relaxAndCut (hA : A.holds 1 = true) {budget : ℕ} {run : Run IntegerStatus}
    (hs : SoundState A m n (T, B)) (h : Tableau.relaxAndCut A budget T B = .ok run) :
    Leads A run.events (T, B) (run.tableau, run.basis) := by
  rcases Tableau.relaxAndCut_cases h with ⟨inner, hinner, hcases⟩
  have hprimal := (storedRule_primalRule hA).replay_runStage hA hs.unitState hinner
  rcases hcases with ⟨-, rfl⟩ | ⟨rest, -, hrest, rfl⟩
  · exact hprimal
  · have hend := ((soundRule_primalRule hA).safe_runStage hA budget hs).of_eq_ok hinner
    exact hprimal.append (hend.replay_cutRounds hA hrest)

end SoundState

/-! ## Whole methods -/

namespace Tableau

/-- Cutting planes from an identity in the tableau are replayed from that identity. -/
theorem replay_cuttingPlane (hA : A.holds 1 = true) {budget : ℕ} {found : Basis}
    {run : Run (Except SolveError IntegerStatus)} (hs : SoundState A m n (T, found))
    (hfound : T.startingBasis A = .ok (some found)) (h : T.cuttingPlane A budget B = .ok run) :
    Leads A run.events (T, found) (run.tableau, run.basis) := by
  rcases cuttingPlane_frame h with ⟨fromStart, hfromStart, hframe⟩
  rcases cutFromStart_cases hfromStart with ⟨start, inner, hstart, hinner, rfl⟩ | ⟨first, hnone, -⟩
  · cases hfound.symm.trans hstart
    rcases hframe with ⟨e, herror, -⟩ | ⟨status, objective, -, -, rfl⟩
    · cases herror
    · exact (hs.replay_relaxAndCut hA hinner).frame
  · cases hfound.symm.trans hnone

/-- What passes the test for a canonical basis are unit vectors in a tableau of built fractions. -/
theorem unitState_of_isCanonical (hA : A.holds 1 = true) (hT : T.Shaped)
    (hentries : ∀ a ∈ T.entries, Fraction.Built A a) (hB : T.isCanonical A B = .ok true) :
    UnitState A T.constraints T.columns (T, B) := by
  have hstores := T.stores_cells hT fun a ha => (hentries a ha).proper hA
  have hsize : B.size = T.constraints := by
    by_contra hne
    unfold isCanonical at hB
    rw [if_neg hne] at hB
    cases hB
  have hrep : B.Represents T.constraints B.basic := ⟨hsize, rfl⟩
  refine hstores.unitState hrep ((hstores.isCanonical_iff_units hA hrep fun i hi him => ?_).mp hB)
  have hmem := hrep.mem_columns.mpr ⟨i, hi, him, rfl⟩
  -- A column that goes down to the last row of the data lies within the tableau.
  have hreach : T.constraints * T.width + B.basic i < T.entries.size :=
    reaches_of_isCanonical hB _ hmem
  have hsize : T.entries.size = T.constraints * T.width + T.width := by
    rw [hT, Nat.succ_mul]
  have hwidth : T.width = T.columns + 1 := rfl
  omega

/-- The records of a run rebuild it.  Replayed from a canonical basis, those of the primal and of the dual
method lead to the tableau and the basis in which the run ends, and so do those of cutting planes from an
identity that is found in the tableau, whatever the arithmetic. -/
theorem replay_run (hA : A.holds 1 = true) (hT : T.Shaped)
    (hentries : ∀ a ∈ T.entries, Fraction.Built A a) :
    (∀ B budget run, T.isCanonical A B = .ok true →
      T.primalSimplex A budget B = .ok run →
        replay A (run.events.map Event.record) (T, B) = .ok (some (run.tableau, run.basis))) ∧
    (∀ B budget run, T.isCanonical A B = .ok true →
      T.dualSimplex A budget B = .ok run →
        replay A (run.events.map Event.record) (T, B) = .ok (some (run.tableau, run.basis))) ∧
    (∀ B budget found run, T.startingBasis A = .ok (some found) →
      T.cuttingPlane A budget B = .ok run →
        replay A (run.events.map Event.record) (T, found) =
          .ok (some (run.tableau, run.basis))) := by
  refine ⟨fun B budget run hB hrun => ?_, fun B budget run hB hrun => ?_,
    fun B budget found run hfound hrun => ?_⟩
  · have hs := unitState_of_isCanonical hA hT hentries hB
    exact (storedRule_primalRule hA).replay_runStage hA hs hrun
  · have hs := unitState_of_isCanonical hA hT hentries hB
    exact (storedRule_dualRule hA).replay_runStage hA hs hrun
  · have hstores := T.stores_cells hT fun a ha => (hentries a ha).proper hA
    rcases (hstores.safe_startingBasis hA).of_eq_ok hfound found rfl with ⟨hrep, hcanonical⟩
    exact replay_cuttingPlane hA (hstores.soundState hrep hcanonical) hfound hrun

/-- A program with an identity from which both methods make a pivot, and cutting planes a cut. -/
def mixedStart : Tableau where
  columns := 3
  constraints := 1
  entries := #[⟨0, 1⟩, ⟨-1, 1⟩, ⟨1, 1⟩, ⟨0, 1⟩, ⟨-3, 1⟩, ⟨2, 1⟩, ⟨-1, 1⟩, ⟨1, 1⟩]

/-- The primal method leads to the basis of the first variable and the dual method to that of the second, and
cutting planes lead to a larger tableau. -/
theorem replay_run_mixedStart :
    (∃ U, replay (.wrapping 32) [.started .primal, .iteration .primal 0,
        .pivot .primal 1 3 ⟨2, 1⟩, .iteration .primal 1, .finished .primal .optimal (some ⟨3, 2⟩)]
        (mixedStart, ⟨[3]⟩) = .ok (some (U, ⟨[1]⟩))) ∧
      (∃ U, replay (.wrapping 32) [.started .dual, .iteration .dual 0,
        .pivot .dual 2 3 ⟨-1, 1⟩, .iteration .dual 1, .finished .dual .optimal (some ⟨3, 1⟩)]
        (mixedStart, ⟨[3]⟩) = .ok (some (U, ⟨[2]⟩))) ∧
      ∃ run, mixedStart.cuttingPlane (.wrapping 32) 5 ⟨[]⟩ = .ok run ∧ run.basis = ⟨[2, 4]⟩ ∧
        replay (.wrapping 32) (run.events.map Event.record) (mixedStart, ⟨[3]⟩) =
          .ok (some (run.tableau, run.basis)) := by
  have hintegers : ∀ a ∈ mixedStart.entries,
      a = Fraction.ofInt a.num ∧ (Arithmetic.wrapping 32).holds a.num = true := by
    decide +kernel
  have hentries : ∀ a ∈ mixedStart.entries, Fraction.Built (.wrapping 32) a := by
    intro a ha
    rcases hintegers a ha with ⟨hinteger, hheld⟩
    rw [hinteger]
    exact .ofInt hheld
  rcases replay_run (A := .wrapping 32) (by decide) (T := mixedStart) (by decide) hentries with
    ⟨hprimal, hdual, hcuts⟩
  refine ⟨?_, ?_, ?_⟩
  · have hanswer : (mixedStart.primalSimplex (.wrapping 32) 5 ⟨[3]⟩).map (fun run =>
        (run.events.map Event.record, run.basis)) = .ok ([.started .primal, .iteration .primal 0,
          .pivot .primal 1 3 ⟨2, 1⟩, .iteration .primal 1,
          .finished .primal .optimal (some ⟨3, 2⟩)], ⟨[1]⟩) := by
      decide +kernel
    rcases map_eq_ok.mp hanswer with ⟨run, hrun, hparts⟩
    rw [Prod.mk.injEq] at hparts
    have hreplay := hprimal ⟨[3]⟩ 5 run (by decide +kernel) hrun
    rw [hparts.1, hparts.2] at hreplay
    exact ⟨run.tableau, hreplay⟩
  · have hanswer : (mixedStart.dualSimplex (.wrapping 32) 5 ⟨[3]⟩).map (fun run =>
        (run.events.map Event.record, run.basis)) = .ok ([.started .dual, .iteration .dual 0,
          .pivot .dual 2 3 ⟨-1, 1⟩, .iteration .dual 1,
          .finished .dual .optimal (some ⟨3, 1⟩)], ⟨[2]⟩) := by
      decide +kernel
    rcases map_eq_ok.mp hanswer with ⟨run, hrun, hparts⟩
    rw [Prod.mk.injEq] at hparts
    have hreplay := hdual ⟨[3]⟩ 5 run (by decide +kernel) hrun
    rw [hparts.1, hparts.2] at hreplay
    exact ⟨run.tableau, hreplay⟩
  · have hanswer : (mixedStart.cuttingPlane (.wrapping 32) 5 ⟨[]⟩).map (fun run => run.basis) =
        .ok ⟨[2, 4]⟩ := by
      decide +kernel
    rcases map_eq_ok.mp hanswer with ⟨run, hrun, hbasis⟩
    exact ⟨run, hrun, hbasis, hcuts ⟨[]⟩ 5 ⟨[3]⟩ run (by decide +kernel) hrun⟩

end Tableau
end ExactSimplex
