/-!
# Byte sources and sinks

A source yields its bytes and then ends or breaks with a reason.  A sink has an optional room; it takes
a piece only if all of it fits.

Main results:

- Theorem {lit}`Binary.Source.take_of_le`: a source with enough bytes is not asked for more.
- Theorem {lit}`Binary.Sink.bytes_write`: an accepted piece is appended.
- Theorem {lit}`Binary.Sink.write_isNone_iff`: a piece is refused exactly when it does not fit.
-/

namespace ExactSimplex
namespace Binary

/-- Bytes that end regularly or break off with a reason. -/
structure Source where
  bytes : List UInt8
  breaks : Option String := none
  deriving Repr, DecidableEq

/-- Takes up to `limit` bytes; a source that has them is not asked for more. -/
def Source.take (source : Source) (limit : Nat) : Except String (List UInt8) :=
  if limit ≤ source.bytes.length then .ok (source.bytes.take limit)
  else match source.breaks with
    | some reason => .error reason
    | none => .ok source.bytes

/-- A source that delivers enough bytes can be read up to the limit, whatever comes after them. -/
theorem Source.take_of_le {source : Source} {limit : Nat} (h : limit ≤ source.bytes.length) :
    source.take limit = .ok (source.bytes.take limit) := by
  simp [Source.take, h]

/-- Accepted pieces, and the room that is left. -/
structure Sink where
  /-- The number of bytes that still fit; no limit if there is none. -/
  room : Option Nat := none
  /-- The accepted pieces, the latest first. -/
  accepted : List (List UInt8) := []
  deriving Repr, DecidableEq

namespace Sink

/-- All accepted bytes in order. -/
def bytes (sink : Sink) : List UInt8 := sink.accepted.reverse.flatten

/-- Takes a piece if all of it fits. -/
def write (sink : Sink) (piece : List UInt8) : Option Sink :=
  match sink.room with
  | none => some ⟨none, piece :: sink.accepted⟩
  | some room =>
      if piece.length ≤ room then some ⟨some (room - piece.length), piece :: sink.accepted⟩
      else none

/-- An accepted piece is appended to the bytes of the sink. -/
theorem bytes_write {sink sink' : Sink} {piece : List UInt8} (h : sink.write piece = some sink') :
    sink'.bytes = sink.bytes ++ piece := by
  unfold write at h
  split at h
  · cases h
    simp [bytes]
  · split at h
    · cases h
      simp [bytes]
    · cases h

/-- A piece is refused exactly when it is longer than the room that is left. -/
theorem write_isNone_iff {sink : Sink} {piece : List UInt8} :
    sink.write piece = none ↔ ∃ room, sink.room = some room ∧ room < piece.length := by
  unfold write
  split
  · next h => simp [h]
  · next room h =>
      split
      · next hle => simp [h, Nat.not_lt.mpr hle]
      · next hlt => simp [h, Nat.lt_of_not_le hlt]

end Sink
end Binary
end ExactSimplex
