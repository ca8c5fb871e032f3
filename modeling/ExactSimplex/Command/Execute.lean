import ExactSimplex.Binary.Coefficients
import ExactSimplex.Command.Arguments
import ExactSimplex.Command.Disk
import ExactSimplex.Narrative.Printer
import ExactSimplex.Problem.Json
import ExactSimplex.Solver.Json
import ExactSimplex.Solver.Solve

/-!
# Running a command

An action is run against a disk and yields what it prints and the exit status: zero for an optimum or a
finished conversion, one for a failure or another answer, two for misused arguments.  The narrative of a
solve goes to standard output, or to standard error where standard output is a document.

Main results:

- Theorem {lit}`Command.exitOf_eq_zero_iff`: a solve exits with zero exactly on an optimum.
-/

namespace ExactSimplex
namespace Command

/-- What a command printed, and its exit status. -/
structure Transcript where
  output : String := ""
  errors : String := ""
  exit : Nat := 0
  deriving Repr, DecidableEq

/-- The transcript of a failure with a report. -/
def failure (report : String) : Transcript := ⟨"", report ++ "\n", 1⟩

/-- The transcript of a calculation that stopped without an answer. -/
def stopped : Fault → Transcript
  | .outOfRange => ⟨"", "Calculation stopped: index out of range\n", 101⟩
  | .overflow _ => ⟨"", "Calculation stopped: overflow\n", 101⟩
  | .budgetSpent => ⟨"", "Calculation stopped: step budget used up\n", 101⟩

/-- The number of optimality tests that a stage may take. -/
def stepBudget : Nat := 10000000

/-- The exit status of an answer. -/
def exitOf (s : Solution) : Nat := if s.isOptimal then 0 else 1

/-- The exit code is zero exactly for an optimum. -/
theorem exitOf_eq_zero_iff (s : Solution) : exitOf s = 0 ↔ s.status = .optimal := by
  unfold exitOf Solution.isOptimal
  cases s.status <;> decide

/-! ## Printing an answer -/

/-- The values of the variables from `index` on, one a line. -/
def valueLines : (index : Nat) → List Fraction → List String
  | _, [] => []
  | index, value :: rest =>
      ("  " ++ Narrative.variableName index ++ " = " ++ toString value) ::
        valueLines (index + 1) rest

/-- The lines of an optimum. -/
def optimalLines (method : Method) (s : Solution) : List String :=
  let cost := match s.objectiveValue with
    | some value => ["Cost: " ++ toString value]
    | none => []
  let cuts := if method = .cuttingPlane then ["", "Cuts added: " ++ toString s.cuts] else []
  "Status: OPTIMAL" :: cost ++
    ["Basis: " ++ String.intercalate " " (s.basis.columns.map Narrative.variableName), "",
      "Values:"] ++ valueLines 1 s.values ++ cuts

/-- The lines of an answer. -/
def solutionLines (method : Method) (s : Solution) : List String :=
  "" :: ("Method: " ++ method.code) ::
    match s.status with
    | .optimal => optimalLines method s
    | .infeasible =>
        ["Status: INFEASIBLE", "No solution exists that satisfies all constraints."]
    | .unbounded =>
        ["Status: UNBOUNDED", "The problem has no finite optimal solution."]

/-- Lines, each with its line end. -/
def unlines (lines : List String) : String := String.join (lines.map (· ++ "\n"))

/-- An answer in the format asked for. -/
def solutionText (format : Format) (method : Method) (s : Solution) : String :=
  match format with
  | .pretty => unlines (solutionLines method s)
  | .json => (s.toJson .word).toPrettyText ++ "\n"

/-! ## Solving -/

/-- Solves a tableau and prints narrative and answer. -/
def solveTableau (options : Options) (solver : Solver) (T : Tableau) : Calc Transcript := do
  let solved ← Solver.solve .word stepBudget solver T
  let told ← if options.quiet then pure "" else Narrative.narrative solved.events
  let (output, errors) := match options.format with
    | .pretty => (told, "")
    | .json => ("", told)
  match solved.result with
  | .error e => pure ⟨output, errors ++ "Solve error: " ++ e.message ++ "\n", 1⟩
  | .ok s => pure ⟨output ++ solutionText options.format solver.method s, errors, exitOf s⟩

/-- The solver of the options, where these leave something open that of the file. -/
def withOptions (options : Options) (solver : Solver) : Solver where
  method := options.method.getD solver.method
  basis := (options.basis.map Basis.mk).orElse fun _ => solver.basis

/-- Prints a tableau, its rows labelled by an identity in it. -/
def showTableau (T : Tableau) : Calc Transcript := do
  let basis ← T.startingBasis .word
  let drawn ← Narrative.table T basis
  pure ⟨String.ofList drawn ++ "\n", "", 0⟩

/-- The transcript of a calculation. -/
def settle : Calc Transcript → Transcript
  | .ok transcript => transcript
  | .error fault => stopped fault

/-! ## Files -/

section Files

variable {m : Type → Type} [Monad m] (disk : Disk m)

/-- Loads a stored tableau; both files are opened before either is read. -/
def loadTableau (numerators denominators : String) (rows columns : Nat) :
    m (Calc (Except LoadError Binary.Loaded)) := do
  match ← disk.openFile numerators with
  | .error reason => pure (.ok (.error (.file numerators reason)))
  | .ok nums => do
      match ← disk.openFile denominators with
      | .error reason => pure (.ok (.error (.file denominators reason)))
      | .ok dens => pure (Binary.readTableau nums dens rows columns)

/-- Stores a tableau; both files are created before either is written. -/
def saveTableau (T : Tableau) (numerators denominators : String) : m (Except LoadError Unit) := do
  match ← disk.create numerators with
  | .error reason => pure (.error (.file numerators reason))
  | .ok _ => do
      match ← disk.create denominators with
      | .error reason => pure (.error (.file denominators reason))
      | .ok _ => do
          let written := Binary.writeTableau T ⟨none, []⟩ ⟨none, []⟩
          match ← disk.write numerators written.numerators.bytes with
          | .error reason => pure (.error (.io reason))
          | .ok _ => do
              match ← disk.write denominators written.denominators.bytes with
              | .error reason => pure (.error (.io reason))
              | .ok _ => pure (.ok ())

/-- The text of a source. -/
def sourceText (source : Binary.Source) : Except String String :=
  match source.breaks with
  | some reason => .error reason
  | none =>
      match String.fromUTF8? source.bytes.toByteArray with
      | some text => .ok text
      | none => .error "stream did not contain valid UTF-8"

/-- Loads a problem description. -/
def loadProblem (file : String) : m (Calc (Except ProblemError Problem)) := do
  match ← disk.openFile file with
  | .error reason => pure (.ok (.error (.file file reason)))
  | .ok source =>
      match sourceText source with
      | .error reason => pure (.ok (.error (.file file reason)))
      | .ok text => pure (Problem.ofText text)

/-- Runs a calculation on a loaded tableau. -/
def withTableau (loaded : Calc (Except LoadError Binary.Loaded))
    (next : Tableau → Calc Transcript) : Transcript :=
  settle (do
    match ← loaded with
    | .error e => pure (failure ("Load error: " ++ e.message))
    | .ok loaded => next loaded.tableau)

/-- The tableau and the solver of a loaded problem. -/
def layOut (P : Problem) : Calc (Except ProblemError (Tableau × Solver)) := do
  match ← P.tableau with
  | .error e => pure (.error e)
  | .ok T =>
      match P.solver with
      | .error e => pure (.error e)
      | .ok solver => pure (.ok (T, solver))

/-- Solves a loaded problem. -/
def solveProblem (options : Options) (loaded : Calc (Except ProblemError Problem)) : Transcript :=
  settle (do
    match ← loaded with
    | .error e => pure (failure ("Problem error: " ++ e.message))
    | .ok P =>
        match ← layOut P with
        | .error e => pure (failure ("Problem error: " ++ e.message))
        | .ok (T, solver) => solveTableau options (withOptions options solver) T)

/-- The tableau of a loaded problem. -/
def tableauOf (loaded : Calc (Except ProblemError Problem)) :
    Calc (Except ProblemError Tableau) := do
  match ← loaded with
  | .error e => pure (.error e)
  | .ok P => P.tableau

/-- Stores the tableau of a problem description. -/
def packProblem (file numerators denominators : String) : m Transcript := do
  match tableauOf (← loadProblem disk file) with
  | .error fault => pure (stopped fault)
  | .ok (.error e) => pure (failure ("Problem error: " ++ e.message))
  | .ok (.ok T) => do
      match ← saveTableau disk T numerators denominators with
      | .error e => pure (failure ("Write error: " ++ e.message))
      | .ok _ =>
          let rows := T.constraints + 1
          let columns := T.columns + 1
          pure ⟨s!"Wrote {rows} x {columns} tableau to {numerators} and {denominators}\n", "", 0⟩

/-- A short account of the commands. -/
def usage : String := unlines
  ["Usage: solve NUMERATORS DENOMINATORS ROWS COLS [OPTIONS]",
   "       problem FILE [OPTIONS]",
   "       pack FILE NUMERATORS DENOMINATORS",
   "       show NUMERATORS DENOMINATORS ROWS COLS",
   "Options: -m METHOD, -b COLUMN,..., -f pretty|json, -q, -v"]

/-- Runs an action. -/
def execute : Action → m Transcript
  | .solve numerators denominators rows columns options => do
      let loaded ← loadTableau disk numerators denominators rows columns
      let solver := withOptions options ⟨.simplex, none⟩
      pure (withTableau loaded (solveTableau options solver))
  | .problem file options => do
      let loaded ← loadProblem disk file
      pure (solveProblem options loaded)
  | .pack file numerators denominators => packProblem disk file numerators denominators
  | .display numerators denominators rows columns => do
      let loaded ← loadTableau disk numerators denominators rows columns
      pure (withTableau loaded showTableau)

/-- Runs the action that the arguments ask for. -/
def run (arguments : List String) : m Transcript :=
  match parse arguments with
  | .error .misused => pure ⟨"", usage, 2⟩
  | .error .helpAsked => pure ⟨usage, "", 0⟩
  | .ok action => execute disk action

end Files

end Command
end ExactSimplex
