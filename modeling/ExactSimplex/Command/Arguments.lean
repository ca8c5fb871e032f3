import ExactSimplex.Solver.Method
import ExactSimplex.Text.Numeral

/-!
# The command line

{lit}`solve`, {lit}`problem`, {lit}`pack` and {lit}`show` take paths and then sizes; the first two also
take options.  Options may stand anywhere before {lit}`--`, short ones may be joined, and a value may
follow its option directly, after an equals sign, or as the next argument unless that starts with a
hyphen.  All options but the basis and the verbosity may be given only once.

The arguments are judged from left to right, each by itself and by those before it.  Reading stops at the
first misuse or at the first request for help, whichever comes first; whether an argument is missing is
only asked at the end.

Main definitions:

- {lit}`Command.Scan.addAll`: the arguments of one command, from left to right.
- {lit}`Command.parse`: the action that a command line asks for.
-/

namespace ExactSimplex
namespace Command

/-! ## Actions -/

/-- How a solution is printed. -/
inductive Format where
  | pretty
  | json
  deriving Repr, DecidableEq

/-- The options of a solve. -/
structure Options where
  method : Option Method := none
  basis : Option (List Nat) := none
  format : Format := .pretty
  quiet : Bool := false
  deriving Repr, DecidableEq

/-- What to do. -/
inductive Action where
  /-- Solve a stored tableau. -/
  | solve (numerators denominators : String) (rows columns : Nat) (options : Options)
  /-- Solve a problem description. -/
  | problem (file : String) (options : Options)
  /-- Store the tableau of a problem description. -/
  | pack (file numerators denominators : String)
  /-- Print a stored tableau. -/
  | display (numerators denominators : String) (rows columns : Nat)
  deriving Repr, DecidableEq

/-- Why the arguments ask for no action. -/
inductive Stop where
  | misused
  | helpAsked
  deriving Repr, DecidableEq

/-- A reading of arguments that may stop. -/
abbrev Reading := Except Stop

/-- What was read; nothing readable is misuse. -/
def Reading.ofOption {α : Type} : Option α → Reading α
  | some a => .ok a
  | none => .error .misused

/-! ## Commands and options -/

/-- The commands. -/
inductive Verb where
  | solve
  | problem
  | pack
  | display
  deriving Repr, DecidableEq

namespace Verb

/-- The command of a name. -/
def ofName (name : List Char) : Option Verb :=
  [("solve", solve), ("problem", problem), ("pack", pack), ("show", display)].lookup
    (String.ofList name)

/-- The number of paths that a command takes. -/
def pathCount : Verb → Nat
  | solve => 2
  | problem => 1
  | pack => 3
  | display => 2

/-- The number of sizes that follow the paths. -/
def sizeCount : Verb → Nat
  | solve => 2
  | problem => 0
  | pack => 0
  | display => 2

/-- Whether a command takes the options of a solve. -/
def solves : Verb → Bool
  | solve => true
  | problem => true
  | pack => false
  | display => false

end Verb

/-- The options that take a value. -/
inductive Valued where
  | method
  | basis
  | format
  deriving Repr, DecidableEq

/-- The options that take none. -/
inductive Flag where
  | quiet
  | verbose
  | help
  deriving Repr, DecidableEq

/-- An option of either kind. -/
inductive Switch where
  | valued (option : Valued)
  | flag (flag : Flag)
  deriving Repr, DecidableEq

/-- The switch of a letter; where nothing is solved there are only two. -/
def shortSwitch (solves : Bool) : Char → Option Switch
  | 'v' => some (.flag .verbose)
  | 'h' => some (.flag .help)
  | 'q' => if solves then some (.flag .quiet) else none
  | 'm' => if solves then some (.valued .method) else none
  | 'b' => if solves then some (.valued .basis) else none
  | 'f' => if solves then some (.valued .format) else none
  | _ => none

/-- The letter of a long name. -/
def shortName (name : List Char) : Option Char :=
  [("verbose", 'v'), ("help", 'h'), ("quiet", 'q'), ("method", 'm'), ("basis", 'b'),
    ("format", 'f')].lookup (String.ofList name)

/-! ## Values -/

/-- The texts before and after the first equals sign. -/
def splitAtEquals : List Char → List Char × Option (List Char)
  | [] => ([], none)
  | c :: rest =>
      if c = '=' then ([], some rest)
      else ((c :: (splitAtEquals rest).1), (splitAtEquals rest).2)

/-- The pieces of a text between commas. -/
def splitAtCommas : (piece text : List Char) → List (List Char)
  | piece, [] => [piece.reverse]
  | piece, c :: rest =>
      if c = ',' then piece.reverse :: splitAtCommas [] rest else splitAtCommas (c :: piece) rest

/-- The columns of a list. -/
def readColumns (value : List Char) : Option (List Nat) :=
  (splitAtCommas [] value).mapM Text.readIndex

/-- The method of a value. -/
def readMethod (value : List Char) : Option Method :=
  match Method.ofText (String.ofList value) with
  | .ok method => some method
  | .error _ => none

/-- The format of a value. -/
def readFormat (value : List Char) : Option Format :=
  [("pretty", Format.pretty), ("json", Format.json)].lookup (String.ofList value)

/-- A path must not be empty. -/
def readPath (argument : List Char) : Option String :=
  if argument.isEmpty then none else some (String.ofList argument)

/-- The value of an option that has none yet. -/
def readOnce {α : Type} (read : List Char → Option α) : Option α → List Char → Reading (Option α)
  | none, value => some <$> Reading.ofOption (read value)
  | some _, _ => .error .misused

/-! ## Reading from left to right -/

/-- What the arguments of a command have said so far. -/
structure Scan where
  paths : List String := []
  sizes : List Nat := []
  method : Option Method := none
  basis : Option (List Nat) := none
  format : Option Format := none
  quiet : Bool := false
  deriving Repr, DecidableEq

namespace Scan

/-- Notes a value; columns of a basis are added to those before. -/
def addValue (scan : Scan) (option : Valued) (value : List Char) : Reading Scan :=
  match option with
  | .method => do
      let method ← readOnce readMethod scan.method value
      pure { scan with method }
  | .basis => do
      let columns ← Reading.ofOption (readColumns value)
      pure { scan with basis := some (scan.basis.getD [] ++ columns) }
  | .format => do
      let format ← readOnce readFormat scan.format value
      pure { scan with format }

/-- Notes a flag. -/
def addFlag (scan : Scan) : Flag → Reading Scan
  | .quiet => if scan.quiet then .error .misused else .ok { scan with quiet := true }
  | .verbose => .ok scan
  | .help => .error .helpAsked

/-- Notes a positional argument in the first place that is left. -/
def addPositional (verb : Verb) (scan : Scan) (argument : List Char) : Reading Scan :=
  if scan.paths.length < verb.pathCount then do
    let path ← Reading.ofOption (readPath argument)
    pure { scan with paths := scan.paths ++ [path] }
  else if scan.sizes.length < verb.sizeCount then do
    let size ← Reading.ofOption (Text.readIndex argument)
    pure { scan with sizes := scan.sizes ++ [size] }
  else .error .misused

/-- Notes joined short options; also returns an option whose value has still to come. -/
def addShorts (solves : Bool) : Scan → List Char → Reading (Scan × Option Valued)
  | scan, [] => .ok (scan, none)
  | scan, c :: rest =>
      match shortSwitch solves c with
      | none => .error .misused
      | some (.flag flag) => do
          let scan ← scan.addFlag flag
          addShorts solves scan rest
      | some (.valued option) =>
          match rest with
          | [] => .ok (scan, some option)
          | '=' :: value => (·, none) <$> scan.addValue option value
          | value => (·, none) <$> scan.addValue option value

/-- Notes a long option; also returns an option whose value has still to come. -/
def addLong (solves : Bool) (scan : Scan) (argument : List Char) :
    Reading (Scan × Option Valued) := do
  let (name, value) := splitAtEquals argument
  let letter ← Reading.ofOption (shortName name)
  let switch ← Reading.ofOption (shortSwitch solves letter)
  match switch, value with
  | .flag flag, none => (·, none) <$> scan.addFlag flag
  | .flag _, some _ => .error .misused
  | .valued option, none => .ok (scan, some option)
  | .valued option, some value => (·, none) <$> scan.addValue option value

/-- Notes all arguments; `pending` is an option that waits for its value. -/
def addAll (verb : Verb) : (pending : Option Valued) → Scan → List (List Char) → Reading Scan
  | none, scan, [] => .ok scan
  | some _, _, [] => .error .misused
  | some option, scan, argument :: rest =>
      match argument with
      | '-' :: _ :: _ => .error .misused
      | value => do
          let scan ← scan.addValue option value
          addAll verb none scan rest
  | none, scan, argument :: rest =>
      match argument with
      | ['-', '-'] => rest.foldlM (addPositional verb) scan
      | '-' :: '-' :: long => do
          let (scan, pending) ← addLong verb.solves scan long
          addAll verb pending scan rest
      | '-' :: c :: shorts => do
          let (scan, pending) ← addShorts verb.solves scan (c :: shorts)
          addAll verb pending scan rest
      | positional => do
          let scan ← addPositional verb scan positional
          addAll verb none scan rest

/-- The options that were noted. -/
def options (scan : Scan) : Options :=
  ⟨scan.method, scan.basis, scan.format.getD .pretty, scan.quiet⟩

/-- The action of a command whose arguments were noted; all its places must be filled. -/
def action (verb : Verb) (scan : Scan) : Reading Action :=
  match verb, scan.paths, scan.sizes with
  | .solve, [numerators, denominators], [rows, columns] =>
      .ok (.solve numerators denominators rows columns scan.options)
  | .problem, [file], [] => .ok (.problem file scan.options)
  | .pack, [file, numerators, denominators], [] => .ok (.pack file numerators denominators)
  | .display, [numerators, denominators], [rows, columns] =>
      .ok (.display numerators denominators rows columns)
  | _, _, _ => .error .misused

end Scan

/-- The action of a command and its arguments. -/
def parseCommand (name : List Char) (arguments : List (List Char)) : Reading Action := do
  let verb ← Reading.ofOption (Verb.ofName name)
  let scan ← Scan.addAll verb none {} arguments
  scan.action verb

/-- A request for help, in general, for a command, or for help itself. -/
def parseHelp : List (List Char) → Stop
  | [] => .helpAsked
  | [topic] =>
      if (Verb.ofName topic).isSome ∨ topic = "help".toList then .helpAsked else .misused
  | _ => .misused

/-- Reads the flags before the command, and the command. -/
def parseFrom : List (List Char) → Reading Action
  | [] => .error .misused
  | argument :: rest =>
      match argument with
      | '-' :: '-' :: long => do
          let _ ← Scan.addLong false {} long
          parseFrom rest
      | '-' :: c :: shorts => do
          let _ ← Scan.addShorts false {} (c :: shorts)
          parseFrom rest
      | name => if name = "help".toList then .error (parseHelp rest) else parseCommand name rest

/-- The action that the arguments ask for. -/
def parse (arguments : List String) : Reading Action := parseFrom (arguments.map String.toList)

end Command
end ExactSimplex
