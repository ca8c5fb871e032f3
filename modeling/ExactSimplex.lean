import ExactSimplex.Main
import ExactSimplex.Proofs.Fraction.Exact
import ExactSimplex.Text.Padding
import ExactSimplex.Proofs.Tableau.Values
import ExactSimplex.Proofs.Tableau.Pivot
import ExactSimplex.Proofs.Program.Canonical
import ExactSimplex.Proofs.Tableau.Canonical
import ExactSimplex.Proofs.Simplex.Frames
import ExactSimplex.Proofs.Simplex.Run
import ExactSimplex.Proofs.Simplex.Exchange
import ExactSimplex.Proofs.Simplex.Primal
import ExactSimplex.Proofs.Simplex.PrimalEnds
import ExactSimplex.Proofs.Simplex.Dual
import ExactSimplex.Proofs.Simplex.DualEnds
import ExactSimplex.Proofs.Simplex.PriceOut
import ExactSimplex.Proofs.Simplex.Artificial
import ExactSimplex.Proofs.Simplex.PhaseOne
import ExactSimplex.Proofs.Solver.TwoPhase
import ExactSimplex.Proofs.Tableau.Cut
import ExactSimplex.Proofs.Program.Cuts
import ExactSimplex.Proofs.Simplex.CuttingPlane
import ExactSimplex.Proofs.Solver.Feasibility
import ExactSimplex.Proofs.Tableau.GivenBasis
import ExactSimplex.Proofs.Simplex.AnyStart
import ExactSimplex.Proofs.Solver.Optima
import ExactSimplex.Proofs.Safety
import ExactSimplex.Proofs.Arithmetic
import ExactSimplex.Proofs.Fraction.Proper
import ExactSimplex.Proofs.Fraction.Operations
import ExactSimplex.Proofs.Tableau.Cells
import ExactSimplex.Proofs.Tableau.Elimination
import ExactSimplex.Proofs.Tableau.Identity
import ExactSimplex.Proofs.Simplex.SoundState
import ExactSimplex.Proofs.Simplex.SoundPhaseOne
import ExactSimplex.Proofs.Simplex.SoundCuts
import ExactSimplex.Proofs.Solver.SafeSolve
import ExactSimplex.Proofs.Solver.Heads
import ExactSimplex.Proofs.Solver.Iterations
import ExactSimplex.Proofs.Refinement
import ExactSimplex.Proofs.Fraction.Refinement
import ExactSimplex.Proofs.Tableau.Refinement
import ExactSimplex.Proofs.Simplex.Refinement
import ExactSimplex.Proofs.Solver.Refinement
import ExactSimplex.Proofs.Fraction.Rationals
import ExactSimplex.Proofs.Solver.Answers
import ExactSimplex.Proofs.Solver.Failures
import ExactSimplex.Proofs.Simplex.Stages
import ExactSimplex.Proofs.Fraction.Sessions
import ExactSimplex.Proofs.Tableau.FirstUnits
import ExactSimplex.Proofs.Tableau.RowOrder
import ExactSimplex.Proofs.Simplex.RowOrder
import ExactSimplex.Proofs.Fraction.Words
import ExactSimplex.Proofs.Solver.RowOrder
import ExactSimplex.Proofs.Persistence
import ExactSimplex.Proofs.Tableau.PartOf
import ExactSimplex.Proofs.Simplex.PartOf
import ExactSimplex.Proofs.Solver.PartOf
import ExactSimplex.Proofs.Tableau.Reach
import ExactSimplex.Proofs.Solver.Unchecked
import ExactSimplex.Proofs.Solver.Again
import ExactSimplex.Proofs.Simplex.EventWords
import ExactSimplex.Proofs.Solver.EventWords
import ExactSimplex.Proofs.Simplex.Replay
import ExactSimplex.Proofs.Program.Directions
import ExactSimplex.Proofs.Simplex.UnboundedCuts
import ExactSimplex.Proofs.Binary.Words
import ExactSimplex.Proofs.Fraction.Reread
import ExactSimplex.Proofs.Binary.RoundTrip
import ExactSimplex.Proofs.Solver.DependentRows
import ExactSimplex.Proofs.Fraction.Fractional
import ExactSimplex.Proofs.Simplex.ExactCuts
import ExactSimplex.Proofs.Json.Tokens
import ExactSimplex.Proofs.Json.Spelling
import ExactSimplex.Proofs.Json.Records
import ExactSimplex.Proofs.Command.Files
import ExactSimplex.Proofs.Problem.Layout
import ExactSimplex.Proofs.Narrative.Drawing
import ExactSimplex.Proofs.Command.Packed
import ExactSimplex.Proofs.Fraction.Floors
import ExactSimplex.Proofs.Tableau.LeastBasis
import ExactSimplex.Proofs.Solver.Starts
import ExactSimplex.Proofs.Program.Pivots
import ExactSimplex.Proofs.Tableau.Repivot
import ExactSimplex.Proofs.Fraction.Quotients
import ExactSimplex.Proofs.Binary.Loading
import ExactSimplex.Proofs.Fraction.StoredPairs
import ExactSimplex.Proofs.Binary.Interrupted
import ExactSimplex.Proofs.Fraction.Magnitudes
import ExactSimplex.Proofs.Tableau.Magnitudes
import ExactSimplex.Proofs.Simplex.Magnitudes
import ExactSimplex.Proofs.Fraction.Written
import ExactSimplex.Proofs.Narrative.Lines
import ExactSimplex.Proofs.Narrative.Rooms
import ExactSimplex.Proofs.Tableau.StandardForm
import ExactSimplex.Proofs.Problem.Reading
import ExactSimplex.Proofs.Problem.Answers
