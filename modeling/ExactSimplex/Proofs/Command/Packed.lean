import ExactSimplex.Proofs.Binary.RoundTrip
import ExactSimplex.Proofs.Command.Files
import ExactSimplex.Proofs.Narrative.Drawing
import ExactSimplex.Proofs.Problem.Layout

/-!
# Problems that are packed

Packing stores the tableau of a problem in two files.  Where the denominators are positive, these files are
read as the very same tableau, so that solving it cannot be told from solving the problem, whatever wraps
and however the solve ends.

Main results:

- Theorem {lit}`Command.exit_solveTableau`: a solve exits with zero exactly if it reports an optimum.
- Theorem {lit}`Command.loadTableau_packed`: what was packed is loaded as the tableau of the problem.
- Theorem {lit}`Command.run_packed`: solving the packed files prints what solving the problem does.
-/

namespace ExactSimplex
namespace Command

open Calc

variable {files packed : Files} {file numerators denominators : String} {told : Transcript}
  {P : Problem} {T : Tableau} {options : Options}

/-! ## Packing -/

/-- A problem of a file can be stored. -/
theorem Files.stored_of_problemAt (h : files.problemAt file = .ok (.ok P)) : P.Stored := by
  unfold problemAt at h
  split at h
  · cases h
  · split at h
    · cases h
    · exact Problem.stored_of_ofText h

/-- Storing a tableau elsewhere leaves the problem of a file as it was. -/
theorem Files.problemAt_saveTableau (hne : numerators ≠ denominators)
    (hsaved : saveTableau Files.disk T numerators denominators files = (.ok (), packed))
    (hnums : file ≠ numerators) (hdens : file ≠ denominators) (h : files.problemAt file = .ok (.ok P)) :
    packed.problemAt file = .ok (.ok P) := by
  rcases openFile_saveTableau hne hsaved with ⟨-, -, hothers⟩
  unfold problemAt at h ⊢
  cases hopen : files.openFile file with
  | error reason =>
      rw [hopen] at h
      cases h
  | ok source =>
      rw [hopen] at h
      rw [hothers file source hnums hdens hopen]
      exact h

/-- A tableau comes from a problem that was loaded and laid out. -/
theorem tableauOf_eq_ok {loaded : Calc (Except ProblemError Problem)}
    (h : tableauOf loaded = .ok (.ok T)) : ∃ P, loaded = .ok (.ok P) ∧ P.tableau = .ok (.ok T) := by
  rcases bind_eq_ok.mp h with ⟨read, rfl, h⟩
  cases read with
  | error e => cases pure_eq_ok.mp h
  | ok P => exact ⟨P, rfl, h⟩

/-- A problem is packed only if its tableau is laid out and stored. -/
theorem packProblem_eq_zero
    (h : packProblem Files.disk file numerators denominators files = (told, packed))
    (hexit : told.exit = 0) :
    ∃ P T, files.problemAt file = .ok (.ok P) ∧ P.tableau = .ok (.ok T) ∧
      saveTableau Files.disk T numerators denominators files = (.ok (), packed) := by
  unfold packProblem at h
  rw [Files.bind_apply, Files.loadProblem_disk] at h
  dsimp only at h
  rcases hloaded : tableauOf (files.problemAt file) with fault | e | T
  · rw [hloaded] at h
    cases h
    cases fault <;> cases hexit
  · rw [hloaded] at h
    cases h
    cases hexit
  · rw [hloaded] at h
    rcases tableauOf_eq_ok hloaded with ⟨P, hP, hT⟩
    refine ⟨P, T, hP, hT, ?_⟩
    dsimp only at h
    rw [Files.bind_apply] at h
    rcases hsaved : saveTableau Files.disk T numerators denominators files with ⟨e | done, saved⟩
    · rw [hsaved] at h
      cases h
      cases hexit
    · rw [hsaved] at h
      cases h
      rfl

/-! ## Solving -/

/-- The exit status of a solve that ended and can be told. -/
theorem exit_of_solve {solver : Solver} {solved : Solved} {text : String}
    (hsolved : solver.solve .word stepBudget T = .ok solved)
    (htext : Narrative.narrative solved.events = .ok text) :
    (settle (solveTableau options solver T)).exit = match solved.result with
      | .error _ => 1
      | .ok s => exitOf s := by
  unfold solveTableau
  rw [hsolved]
  dsimp only [bind, Except.bind]
  rw [htext]
  cases options.quiet <;> cases options.format <;> cases solved.result <;> rfl

/-- A solve exits with zero exactly if it reports an optimum. -/
theorem exit_solveTableau (hT : T.Shaped) (hentries : ∀ a ∈ T.entries, Fraction.Built .word a)
    (options : Options) (solver : Solver) :
    (settle (solveTableau options solver T)).exit = 0 ↔
      ∃ solved s, solver.solve .word stepBudget T = .ok solved ∧ solved.result = .ok s ∧
        s.status = .optimal := by
  cases hsolved : solver.solve .word stepBudget T with
  | error fault =>
      unfold solveTableau
      rw [hsolved]
      constructor
      · intro hexit
        cases fault <;> cases hexit
      · rintro ⟨solved, s, h, -⟩
        cases h
  | ok solved =>
      rcases solver.exists_narrative Binary.holds_one_word hT hentries hsolved with ⟨text, htext⟩
      rw [exit_of_solve hsolved htext]
      constructor
      · intro hexit
        cases hresult : solved.result with
        | error e =>
            rw [hresult] at hexit
            cases hexit
        | ok s =>
            rw [hresult] at hexit
            exact ⟨solved, s, rfl, hresult, (exitOf_eq_zero_iff s).mp hexit⟩
      · rintro ⟨_, s, h, hresult, hstatus⟩
        cases h
        rw [hresult]
        exact (exitOf_eq_zero_iff s).mpr hstatus

/-! ## Packed problems -/

/-- What was packed is loaded as the tableau of the problem, if its denominators are positive. -/
theorem loadTableau_packed (hne : numerators ≠ denominators) (hP : files.problemAt file = .ok (.ok P))
    (hT : P.tableau = .ok (.ok T))
    (hsaved : saveTableau Files.disk T numerators denominators files = (.ok (), packed))
    (hsize : Binary.Addressable T) (hpos : ∀ a ∈ T.entries, 0 < a.den) :
    ∃ loaded, packed.tableauAt numerators denominators (P.matrix.length + 1) (P.objective.length + 1) =
      .ok (.ok loaded) ∧ loaded.tableau = T := by
  rcases (Files.stored_of_problemAt hP).laidOut hT with ⟨hshaped, hconstraints, hcolumns, hbuilt⟩
  rcases Files.openFile_saveTableau hne hsaved with ⟨hnums, hdens, -⟩
  have hproper : ∀ a ∈ T.entries.toList, Fraction.Proper .word a := fun a ha =>
    (hbuilt a (Array.mem_toList_iff.mp ha)).proper Binary.holds_one_word
  rcases Binary.readTableau_of_written hshaped hproper hsize with ⟨loaded, hread, -, -, hself⟩
  refine ⟨loaded, ?_, hself fun a ha => hpos a (Array.mem_toList_iff.mp ha)⟩
  unfold Files.tableauAt
  rw [hnums, hdens, ← hconstraints, ← hcolumns]
  exact hread

/-- A command line that asks for an action executes it. -/
theorem run_of_parse {arguments : List String} {action : Action} (h : parse arguments = .ok action)
    (files : Files) : run Files.disk arguments files = execute Files.disk action files := by
  unfold run
  rw [h]

/-- Solving stored coefficients loads the tableau and solves it; no file is changed. -/
theorem execute_solve (numerators denominators : String) (rows columns : ℕ) (options : Options)
    (files : Files) :
    execute Files.disk (.solve numerators denominators rows columns options) files =
      (withTableau (files.tableauAt numerators denominators rows columns)
        (solveTableau options (withOptions options ⟨.simplex, none⟩)), files) := by
  unfold execute
  dsimp only
  rw [Files.bind_apply, Files.loadTableau_disk]
  rfl

/-- Solving a problem document loads the problem and solves it; no file is changed. -/
theorem execute_problem (file : String) (options : Options) (files : Files) :
    execute Files.disk (.problem file options) files =
      (solveProblem options (files.problemAt file), files) := by
  unfold execute
  dsimp only
  rw [Files.bind_apply, Files.loadProblem_disk]
  rfl

/-- Where the options give a method, and a basis unless the solver has none, they alone decide. -/
theorem withOptions_eq {solver : Solver} {method : Method} (hmethod : options.method = some method)
    (hbasis : solver.basis = none ∨ options.basis.isSome = true) :
    withOptions options solver = ⟨method, options.basis.map Basis.mk⟩ := by
  unfold withOptions
  rw [hmethod]
  cases hgiven : options.basis with
  | some columns => rfl
  | none =>
      rw [hgiven] at hbasis
      rw [hbasis.resolve_right Bool.false_ne_true]
      rfl

/-- A problem with a valid method is solved as its tableau is. -/
theorem solveProblem_of_tableau {own : Option Method} {method : Method}
    (hT : P.tableau = .ok (.ok T)) (hown : P.method = .ok own) (hmethod : options.method = some method)
    (hbasis : P.basis = none ∨ options.basis.isSome = true) :
    solveProblem options (.ok (.ok P)) =
      settle (solveTableau options ⟨method, options.basis.map Basis.mk⟩ T) := by
  have hsolver : P.solver = .ok ⟨own.getD .simplex, P.basis.map Basis.mk⟩ := by
    unfold Problem.solver
    rw [hown]
  have hlaidOut : layOut P = .ok (.ok (T, ⟨own.getD .simplex, P.basis.map Basis.mk⟩)) := by
    unfold layOut
    rw [hT]
    dsimp only [bind, Except.bind]
    rw [hsolver]
    rfl
  have hbasis' : P.basis.map Basis.mk = none ∨ options.basis.isSome = true :=
    hbasis.imp_left fun h => by rw [h]; rfl
  unfold solveProblem
  dsimp only [bind, Except.bind]
  rw [hlaidOut]
  dsimp only
  rw [withOptions_eq hmethod hbasis']

/-- Solving the packed files of a problem cannot be told from solving the problem: with the same options,
which give a method, and a basis unless the problem has none, both commands print the same to both channels
and exit with the same status, whatever wraps and however the solve ends.  This status is zero exactly if the
reported status is that of an optimum.  The problem may be solved before packing or, unless its file was
overwritten, afterwards. -/
theorem run_packed {arguments : List String}
    (hparse : parse arguments = .ok (.pack file numerators denominators))
    (hne : numerators ≠ denominators) (hpack : run Files.disk arguments files = (told, packed))
    (hexit : told.exit = 0) :
    ∃ P T, files.problemAt file = .ok (.ok P) ∧ P.tableau = .ok (.ok T) ∧
      ∀ (options : Options) (method : Method) (own : Option Method) (solving describing : List String),
        Binary.Addressable T → (∀ a ∈ T.entries, 0 < a.den) → P.method = .ok own →
        options.method = some method → (P.basis = none ∨ options.basis.isSome = true) →
        parse solving = .ok (.solve numerators denominators (P.matrix.length + 1)
          (P.objective.length + 1) options) →
        parse describing = .ok (.problem file options) →
        (run Files.disk solving packed).1 = (run Files.disk describing files).1 ∧
          (file ≠ numerators → file ≠ denominators →
            (run Files.disk solving packed).1 = (run Files.disk describing packed).1) ∧
          ((run Files.disk solving packed).1.exit = 0 ↔
            ∃ solved s, (⟨method, options.basis.map Basis.mk⟩ : Solver).solve .word stepBudget T =
              .ok solved ∧ solved.result = .ok s ∧ s.status = .optimal) := by
  rw [run_of_parse hparse] at hpack
  rcases packProblem_eq_zero hpack hexit with ⟨P, T, hP, hT, hsaved⟩
  refine ⟨P, T, hP, hT, ?_⟩
  intro options method own solving describing hsize hpos hown hmethod hbasis hsolving hdescribing
  rcases loadTableau_packed hne hP hT hsaved hsize hpos with ⟨loaded, hloaded, hself⟩
  rcases (Files.stored_of_problemAt hP).laidOut hT with ⟨hshaped, -, -, hbuilt⟩
  -- Both commands settle the same calculation on the same tableau.
  have hsolve : (run Files.disk solving packed).1 =
      settle (solveTableau options ⟨method, options.basis.map Basis.mk⟩ T) := by
    rw [run_of_parse hsolving, execute_solve, hloaded, withOptions_eq hmethod (Or.inl rfl), ← hself]
    rfl
  have hdescribe : ∀ disk, Files.problemAt disk file = .ok (.ok P) →
      (run Files.disk describing disk).1 =
        settle (solveTableau options ⟨method, options.basis.map Basis.mk⟩ T) := by
    intro disk hloaded
    rw [run_of_parse hdescribing, execute_problem, hloaded]
    exact solveProblem_of_tableau hT hown hmethod hbasis
  refine ⟨hsolve.trans (hdescribe files hP).symm, fun hnums hdens => ?_, ?_⟩
  · have hkept := Files.problemAt_saveTableau hne hsaved hnums hdens hP
    exact hsolve.trans (hdescribe packed hkept).symm
  · rw [hsolve]
    exact exit_solveTableau hshaped hbuilt options _

/-- A problem with coefficients of every kind and a method of its own. -/
def mixedProblem : Problem where
  matrix := [[.text "1/2", .fraction ⟨-1, 2⟩, .integer 1]]
  rightHandSide := [.text "3/4"]
  objective := [.integer (-1), .integer 1, .integer 0]
  mode := some "TPS"

/-- Its tableau. -/
def mixedTableau : Tableau where
  columns := 3
  constraints := 1
  entries := #[⟨0, 1⟩, ⟨-1, 1⟩, ⟨1, 1⟩, ⟨0, 1⟩, ⟨3, 4⟩, ⟨1, 2⟩, ⟨-1, 2⟩, ⟨1, 1⟩]

/-- A disk with a text of the problem; one denominator in it is negative. -/
def mixedFiles : Files :=
  ⟨[("mixed.json", ("\x7b\"A\": [[\"1/2\", \x7b\"numerator\": 2, \"denominator\": -4\x7d, 1]], " ++
    "\"b\": [\"3/4\"], \"c\": [-1, 1, 0], \"mode\": \"TPS\"\x7d").toUTF8.toList)]⟩

/-- The method of the options replaces that of the file, and both commands report an optimum. -/
theorem run_packed_mixed :
    ∃ packed, (run Files.disk ["pack", "mixed.json", "n.bin", "d.bin"] mixedFiles).1.exit = 0 ∧
      (run Files.disk ["pack", "mixed.json", "n.bin", "d.bin"] mixedFiles).2 = packed ∧
      (run Files.disk ["solve", "n.bin", "d.bin", "2", "4", "--method=S"] packed).1 =
        (run Files.disk ["problem", "-mS", "mixed.json"] mixedFiles).1 ∧
      (run Files.disk ["solve", "n.bin", "d.bin", "2", "4", "--method=S"] packed).1.exit = 0 ∧
      ∃ solved s, (⟨.simplex, none⟩ : Solver).solve .word stepBudget mixedTableau = .ok solved ∧
        solved.result = .ok s ∧ s.status = .optimal := by
  have hparse : parse ["pack", "mixed.json", "n.bin", "d.bin"] =
      .ok (.pack "mixed.json" "n.bin" "d.bin") := by
    decide +kernel
  have hsolving : parse ["solve", "n.bin", "d.bin", "2", "4", "--method=S"] =
      .ok (.solve "n.bin" "d.bin" 2 4 ⟨some .simplex, none, .pretty, false⟩) := by
    decide +kernel
  have hdescribing : parse ["problem", "-mS", "mixed.json"] =
      .ok (.problem "mixed.json" ⟨some .simplex, none, .pretty, false⟩) := by
    decide +kernel
  have hpack : run Files.disk ["pack", "mixed.json", "n.bin", "d.bin"] mixedFiles = (_, _) :=
    Prod.mk.eta.symm
  have hpacked : (run Files.disk ["pack", "mixed.json", "n.bin", "d.bin"] mixedFiles).1.exit = 0 := by
    decide +kernel
  rcases run_packed hparse (by decide) hpack hpacked with ⟨P, T, hP, hT, hrun⟩
  have hproblem : mixedFiles.problemAt "mixed.json" = .ok (.ok mixedProblem) := by
    decide +kernel
  obtain rfl := Except.ok.inj (Except.ok.inj (hproblem.symm.trans hP))
  have htableau : mixedProblem.tableau = .ok (.ok mixedTableau) := by
    decide +kernel
  obtain rfl := Except.ok.inj (Except.ok.inj (htableau.symm.trans hT))
  have hpositive : ∀ a ∈ mixedTableau.entries, 0 < a.den := by
    decide +kernel
  rcases hrun _ .simplex (some .twoPhase) _ _ (by decide) hpositive rfl rfl (Or.inl rfl) hsolving
    hdescribing with ⟨hsame, -, hexit⟩
  have hzero : (run Files.disk ["solve", "n.bin", "d.bin", "2", "4", "--method=S"]
      (run Files.disk ["pack", "mixed.json", "n.bin", "d.bin"] mixedFiles).2).1.exit = 0 := by
    decide +kernel
  exact ⟨_, hpacked, rfl, hsame, hzero, hexit.mp hzero⟩

end Command
end ExactSimplex
