import ExactSimplex.Binary.Stream

/-!
# Files

The command line reaches files through a {lit}`Disk`: opening a file gives a byte source, creating one
leaves it empty, and writing replaces its content.  A disk in memory keeps named contents; it knows the
directories that its files lie in.

Main results:

- Theorem {lit}`Command.Files.get_put`: what was put under a path is found there.
-/

namespace ExactSimplex
namespace Command

/-- Access to files; a failure is given by its reason. -/
structure Disk (m : Type → Type) where
  openFile : String → m (Except String Binary.Source)
  create : String → m (Except String Unit)
  write : String → List UInt8 → m (Except String Unit)

/-- The reason for a missing file or directory. -/
def notFound : String := "No such file or directory (os error 2)"

/-- The reason for a path through something that is no directory. -/
def notDirectory : String := "Not a directory (os error 20)"

/-- The reason for reading or replacing a directory. -/
def isDirectory : String := "Is a directory (os error 21)"

/-- Named contents. -/
structure Files where
  contents : List (String × List UInt8) := []
  deriving Repr, DecidableEq

namespace Files

/-- The content under a path. -/
def get (files : Files) (path : String) : Option (List UInt8) := files.contents.lookup path

/-- Puts a content under a path. -/
def put (files : Files) (path : String) (content : List UInt8) : Files :=
  ⟨(path, content) :: files.contents.filter fun entry => entry.1 != path⟩

/-- Whether some file lies below a path. -/
def hasDirectory (files : Files) (path : List Char) : Bool :=
  files.contents.any fun entry => (path ++ ['/']).isPrefixOf entry.1.toList

/-- The proper directory parts of a path, each with the slash it ends in left out. -/
def parents : (before path : List Char) → List (List Char)
  | _, [] => []
  | before, c :: rest =>
      if c = '/' ∧ before ≠ [] then before :: parents (before ++ [c]) rest
      else parents (before ++ [c]) rest

/-- Why the directories of a path cannot be passed, if they cannot. -/
def blockedBy (files : Files) (path : String) : Option String :=
  (parents [] path.toList).findSome? fun directory =>
    if (files.get (String.ofList directory)).isSome then some notDirectory
    else if files.hasDirectory directory then none
    else some notFound

/-- Opens a file in memory. -/
def openFile (files : Files) (path : String) : Except String Binary.Source :=
  match files.blockedBy path with
  | some reason => .error reason
  | none =>
      match files.get path with
      | some content => .ok ⟨content, none⟩
      | none =>
          if files.hasDirectory path.toList then .ok ⟨[], some isDirectory⟩ else .error notFound

/-- Replaces a file in memory. -/
def replace (files : Files) (path : String) (content : List UInt8) : Except String Files :=
  match files.blockedBy path with
  | some reason => .error reason
  | none =>
      if files.hasDirectory path.toList then .error isDirectory else .ok (files.put path content)

/-- Replaces a file of the state. -/
def replaceM (path : String) (content : List UInt8) : StateM Files (Except String Unit) := do
  match (← MonadState.get).replace path content with
  | .ok files => do
      set files
      pure (.ok ())
  | .error reason => pure (.error reason)

/-- The disk in memory. -/
def disk : Disk (StateM Files) where
  openFile path := do
    let files ← MonadState.get
    pure (files.openFile path)
  create path := replaceM path []
  write path content := replaceM path content

/-- A file that was put is found with its content. -/
theorem get_put (files : Files) (path : String) (content : List UInt8) :
    (files.put path content).get path = some content := by
  simp [get, put]

end Files
end Command
end ExactSimplex
