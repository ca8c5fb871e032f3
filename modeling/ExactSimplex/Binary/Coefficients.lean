import ExactSimplex.Binary.Stream
import ExactSimplex.Binary.Word
import ExactSimplex.Fraction.Text
import ExactSimplex.Tableau.Basic

/-!
# Coefficient streams

A tableau of words is stored as two streams of words row by row, one of numerators and one of
denominators.  Reading checks the sizes first, then the length of the numerator stream, then that of the
denominator stream, and last the shape.  Writing alternates between the two streams and stops at the
first piece that is refused.

Main results:

- Theorem {lit}`Binary.writeEntries_unlimited`: sinks without a limit take everything.
-/

namespace ExactSimplex

/-- The two streams of a stored tableau. -/
inductive CoefficientStream where
  | numerators
  | denominators
  deriving Repr, DecidableEq

/-- The name of a stream in reports. -/
def CoefficientStream.name : CoefficientStream → String
  | .numerators => "numerator"
  | .denominators => "denominator"

/-- Why a stored tableau cannot be read or written. -/
inductive LoadError where
  | file (path reason : String)
  | io (reason : String)
  | length (stream : CoefficientStream) (expected found : Nat)
  | dimensions (rows columns : Nat)
  | shape (error : SolveError)
  deriving Repr, DecidableEq

/-- The report of a failure to read or write a stored tableau. -/
def LoadError.message : LoadError → String
  | .file path reason => s!"cannot access {path}: {reason}"
  | .io reason => s!"IO error: {reason}"
  | .length stream expected found =>
      let name := stream.name
      s!"{name} stream has {found} bytes, expected {expected}"
  | .dimensions rows columns => s!"a {rows} x {columns} tableau is too large to load"
  | .shape error => error.message

namespace Binary

/-! ## Reading -/

/-- The words of a stream that must have exactly `expected` bytes; one more byte is enough to tell. -/
def readStream (source : Source) (stream : CoefficientStream) (expected : Nat) :
    Except LoadError (List Int) :=
  match source.take (expected + 1) with
  | .error reason => .error (.io reason)
  | .ok bytes =>
      if bytes.length = expected then .ok (readWords bytes)
      else .error (.length stream expected bytes.length)

/-- The fractions of paired words, and the errors covered up by a zero. -/
def pairWords : List Int → List Int → Calc (List Fraction × List ArithmeticError)
  | num :: nums, den :: dens => do
      let outcome ← Fraction.tryOfRatio .word num den
      let (fractions, errors) ← pairWords nums dens
      pure (Fraction.orZero outcome :: fractions, Fraction.coveredErrors outcome ++ errors)
  | _, _ => pure ([], [])

/-- A tableau with the errors covered up by a zero. -/
structure Loaded where
  tableau : Tableau
  covered : List ArithmeticError
  deriving Repr, DecidableEq

/-- The words of both streams of a tableau of `rows` rows and `cols` columns. -/
def readStreams (numerators denominators : Source) (rows cols : Nat) :
    Except LoadError (List Int × List Int) :=
  let expected := rows * cols * wordSize
  if Text.indexBound ≤ expected then .error (.dimensions rows cols)
  else do
    let nums ← readStream numerators .numerators expected
    let dens ← readStream denominators .denominators expected
    .ok (nums, dens)

/-- Reads a tableau of `rows` rows and `cols` columns. -/
def readTableau (numerators denominators : Source) (rows cols : Nat) :
    Calc (Except LoadError Loaded) :=
  match readStreams numerators denominators rows cols with
  | .error e => pure (.error e)
  | .ok (nums, dens) => do
      let (fractions, covered) ← pairWords nums dens
      pure (match Tableau.ofEntries rows cols fractions with
        | .ok T => .ok ⟨T, covered⟩
        | .error e => .error (.shape e))

/-! ## Writing -/

/-- The two sinks of a tableau, and whether one of them refused a piece. -/
structure Written where
  numerators : Sink
  denominators : Sink
  failed : Bool
  deriving Repr, DecidableEq

/-- Writes fractions one by one, each numerator before its denominator. -/
def writeEntries : List Fraction → Sink → Sink → Written
  | [], nums, dens => ⟨nums, dens, false⟩
  | a :: rest, nums, dens =>
      match nums.write (wordBytes a.num) with
      | none => ⟨nums, dens, true⟩
      | some nums =>
          match dens.write (wordBytes a.den) with
          | none => ⟨nums, dens, true⟩
          | some dens => writeEntries rest nums dens

/-- Writes a tableau. -/
def writeTableau (T : Tableau) (nums dens : Sink) : Written :=
  writeEntries T.entries.toList nums dens

/-- Sinks without a limit take every entry. -/
theorem writeEntries_unlimited (entries : List Fraction) {nums dens : Sink}
    (hnums : nums.room = none) (hdens : dens.room = none) :
    (writeEntries entries nums dens).failed = false := by
  induction entries generalizing nums dens with
  | nil => rfl
  | cons a rest ih =>
      simp only [writeEntries, Sink.write, hnums, hdens]
      exact ih rfl rfl

end Binary
end ExactSimplex
