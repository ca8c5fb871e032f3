import ExactSimplex.Command.Execute

/-!
# The program

The files of the system serve as the disk of the command line.  A directory can be opened but not read.
-/

namespace ExactSimplex
namespace Command

/-- The reason that the system gives for a failure. -/
def reasonOf : IO.Error → String
  | .alreadyExists _ code details => reason code details
  | .otherError code details => reason code details
  | .resourceBusy code details => reason code details
  | .resourceVanished code details => reason code details
  | .unsupportedOperation code details => reason code details
  | .hardwareFault code details => reason code details
  | .unsatisfiedConstraints code details => reason code details
  | .illegalOperation code details => reason code details
  | .protocolError code details => reason code details
  | .timeExpired code details => reason code details
  | .interrupted _ code details => reason code details
  | .noFileOrDirectory _ code details => reason code details
  | .invalidArgument _ code details => reason code details
  | .permissionDenied _ code details => reason code details
  | .resourceExhausted _ code details => reason code details
  | .inappropriateType _ code details => reason code details
  | .noSuchThing _ code details => reason code details
  | .unexpectedEof => "failed to fill whole buffer"
  | .userError message => message
where
  reason (code : UInt32) (details : String) : String := s!"{details} (os error {code})"

/-- Replaces a file of the system. -/
def replaceFile (path : String) (content : List UInt8) : IO (Except String Unit) := do
  try
    IO.FS.writeBinFile path content.toByteArray
    pure (.ok ())
  catch error => pure (.error (reasonOf error))

/-- The source of an open file. -/
def sourceOf (handle : IO.FS.Handle) : IO Binary.Source := do
  try
    let content ← handle.readBinToEnd
    pure ⟨content.toList, none⟩
  catch error => pure ⟨[], some (reasonOf error)⟩

/-- Opens a file of the system. -/
def openFile (path : String) : IO (Except String Binary.Source) := do
  try
    let handle ← IO.FS.Handle.mk path .read
    let source ← sourceOf handle
    pure (.ok source)
  catch error => pure (.error (reasonOf error))

/-- The files of the system. -/
def systemDisk : Disk IO where
  openFile := openFile
  create path := replaceFile path []
  write := replaceFile

end Command
end ExactSimplex

/-- Runs the command line and exits with the status of its transcript. -/
def main (arguments : List String) : IO UInt32 := do
  let transcript ← ExactSimplex.Command.run ExactSimplex.Command.systemDisk arguments
  IO.print transcript.output
  IO.eprint transcript.errors
  pure transcript.exit.toUInt32
