import ExactSimplex.Binary.Stream
import ExactSimplex.Narrative.Table
import ExactSimplex.Simplex.Event

/-!
# The narrative of a solve

Every event is told in a number of pieces, each a text or the drawing of a state.  A printer observes
the events of a solve and sends the pieces of each to a sink one by one; after the first piece that is
refused it sends nothing more, and draws nothing more either.  At the end it hands back the sink or
reports that a piece was refused.

Main results:

- Theorem {lit}`Narrative.Printer.send_failed`: a printer that has failed stays as it is.
- Theorem {lit}`Narrative.Printer.tell_of_texts`: if every state can be drawn, telling is sending the
  texts one by one.
- Theorem {lit}`Narrative.Printer.tell_append`: telling two stretches is telling one after the other.
- Theorem {lit}`Narrative.Printer.observe_eq_tell`: the events are told in order.
-/

namespace ExactSimplex
namespace Narrative

/-! ## Pieces -/

/-- A piece of the narrative, sent to the sink as a whole. -/
inductive Piece where
  | words (text : String)
  /-- The table of a state, drawn when its turn comes. -/
  | drawing (tableau : Tableau) (basis : Basis)
  deriving Repr, DecidableEq

/-- The text of a piece. -/
def Piece.text : Piece → Calc String
  | .words text => .ok text
  | .drawing tableau basis => String.ofList <$> table tableau (some basis)

/-- The texts of pieces. -/
def texts : List Piece → Calc (List String)
  | [] => pure []
  | piece :: rest => do
      let first ← piece.text
      let others ← texts rest
      pure (first :: others)

/-- The name of a variable as a string. -/
def variableName (column : Nat) : String := String.ofList (variableLabel column)

/-- The words that tell how a stage ended. -/
def endWords (outcome : Outcome) (objective : Option Fraction) : List String :=
  match outcome with
  | .optimal =>
      "Found an optimal solution.\n" ::
        match objective with
        | some cost => ["Cost = ", toString cost, "\n"]
        | none => []
  | .unbounded => ["Problem is unbounded.\n"]
  | .feasible => ["Found a feasible basis.\n"]
  | .infeasible => ["Problem is infeasible.\n"]

/-- The pieces that tell an event. -/
def pieces : Event → List Piece
  | .started stage => ["== ", stage.name, " ==\n"].map .words
  | .iteration _ index tableau basis =>
      ["Current tableau - itr: ", toString index, "\n"].map .words ++
        [.drawing tableau basis, .words "\n"]
  | .pivot _ entering leaving element =>
      ["x[", toString entering, "] enters the basis.\n", "Current pivot element = ", toString element, "\n",
        "x[", toString leaving, "] leaves the basis.\n"].map .words
  | .degeneracy row artificial entering =>
      ["Artificial x[", toString artificial, "] is basic at zero level in row ", toString row, "; x[",
        toString entering, "] replaces it.\n"].map .words
  | .cut round sourceRow =>
      ["Adding Gomory cut ", toString round, " from row ", toString sourceRow, ".\n"].map .words
  | .finished _ outcome objective => (endWords outcome objective).map .words

/-- The whole narrative of a list of events. -/
def narrative (events : List Event) : Calc String := do
  let texts ← texts (events.flatMap pieces)
  pure (String.join texts)

/-! ## Printers -/

/-- A sink and whether it has refused a piece. -/
structure Printer where
  sink : Binary.Sink
  failed : Bool := false
  deriving Repr, DecidableEq

namespace Printer

/-- Sends a text to the sink unless one has been refused. -/
def send (printer : Printer) (text : String) : Printer :=
  if printer.failed then printer
  else match printer.sink.write text.toUTF8.toList with
    | some sink => ⟨sink, false⟩
    | none => ⟨printer.sink, true⟩

/-- Sends the texts of pieces one by one as long as none is refused. -/
def tell (printer : Printer) : List Piece → Calc Printer
  | [] => .ok printer
  | piece :: rest =>
      if printer.failed then .ok printer
      else do
        let text ← piece.text
        tell (printer.send text) rest

/-- A printer for an empty sink with some room. -/
def fresh (room : Option Nat) : Printer := ⟨⟨room, []⟩, false⟩

/-- Tells events one by one. -/
def observe (printer : Printer) : List Event → Calc Printer
  | [] => .ok printer
  | event :: rest => do
      let told ← printer.tell (pieces event)
      observe told rest

/-- The sink, unless it refused a piece. -/
def finish (printer : Printer) : Option Binary.Sink :=
  if printer.failed then none else some printer.sink

/-- Nothing is sent after a failure. -/
theorem send_failed {printer : Printer} (h : printer.failed = true) (text : String) :
    printer.send text = printer := by
  simp [send, h]

/-- No text of a sequence is sent after a failure. -/
theorem foldl_send_failed {printer : Printer} (h : printer.failed = true) (texts : List String) :
    texts.foldl send printer = printer := by
  induction texts with
  | nil => rfl
  | cons text rest ih => rw [List.foldl_cons, send_failed h, ih]

/-- Nothing is told after a failure. -/
theorem tell_failed {printer : Printer} (h : printer.failed = true) (pieces : List Piece) :
    printer.tell pieces = .ok printer := by
  cases pieces <;> simp [tell, h]

/-- If every state can be drawn, telling is sending the texts one by one. -/
theorem tell_of_texts {printer : Printer} {pieces : List Piece} {ready : List String}
    (h : texts pieces = .ok ready) : printer.tell pieces = .ok (ready.foldl send printer) := by
  induction pieces generalizing printer ready with
  | nil =>
      cases Calc.pure_eq_ok.mp h
      rfl
  | cons piece rest ih =>
      rw [texts, Calc.bind_eq_ok] at h
      obtain ⟨first, hfirst, h⟩ := h
      rw [Calc.bind_eq_ok] at h
      obtain ⟨others, hothers, h⟩ := h
      cases Calc.pure_eq_ok.mp h
      rw [tell]
      split
      · next hfailed => rw [foldl_send_failed hfailed]
      · rw [hfirst, List.foldl_cons]
        exact ih hothers

/-- Two sequences of pieces are told one after the other. -/
theorem tell_append (printer : Printer) (first second : List Piece) :
    printer.tell (first ++ second) = (printer.tell first >>= fun told => told.tell second) := by
  induction first generalizing printer with
  | nil => rfl
  | cons piece rest ih =>
      simp only [List.cons_append, tell]
      split
      · next h => exact (tell_failed h second).symm
      · cases piece.text with
        | error fault => rfl
        | ok text => exact ih (printer.send text)

/-- Observing events is telling all of their pieces. -/
theorem observe_eq_tell (printer : Printer) (events : List Event) :
    printer.observe events = printer.tell (events.flatMap pieces) := by
  induction events generalizing printer with
  | nil => rfl
  | cons event rest ih =>
      rw [observe, List.flatMap_cons, tell_append]
      congr 1
      funext told
      exact ih told

end Printer
end Narrative
end ExactSimplex
