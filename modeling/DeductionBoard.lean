import DeductionBoard.Board.Basic
import DeductionBoard.Board.Edit
import DeductionBoard.Board.Params
import DeductionBoard.Board.Piece
import DeductionBoard.Board.Position
import DeductionBoard.Board.Topology
import DeductionBoard.CommandLine.Arguments
import DeductionBoard.CommandLine.Report
import DeductionBoard.CommandLine.Run
import DeductionBoard.Data.Ascending
import DeductionBoard.Data.Defect
import DeductionBoard.Data.Digest
import DeductionBoard.Data.Json
import DeductionBoard.Data.Value
import DeductionBoard.Derivation.Goal
import DeductionBoard.Derivation.Report
import DeductionBoard.Derivation.Rules
import DeductionBoard.Derivation.Status
import DeductionBoard.Derivation.Steps
import DeductionBoard.Export
import DeductionBoard.Formula.Basic
import DeductionBoard.Formula.Key
import DeductionBoard.Formula.Name
import DeductionBoard.Formula.Order
import DeductionBoard.Formula.Parser
import DeductionBoard.Formula.Printer
import DeductionBoard.Formula.Token
import DeductionBoard.Level.Basic
import DeductionBoard.Level.Grid
import DeductionBoard.Level.Layout
import DeductionBoard.Level.Publication
import DeductionBoard.Level.Storage
import DeductionBoard.Level.Tutorial
import DeductionBoard.Number.Binary64
import DeductionBoard.Number.Extended
import DeductionBoard.Number.Rounding
import DeductionBoard.Query.Entailment
import DeductionBoard.Query.Script
import DeductionBoard.Query.Sentence
import DeductionBoard.Query.Signature
import DeductionBoard.Query.Symbol
import DeductionBoard.Query.Theory
import DeductionBoard.Rule
import DeductionBoard.Search.Backward
import DeductionBoard.Search.Construction
import DeductionBoard.Search.Example
import DeductionBoard.Search.Placement
import DeductionBoard.Session
import DeductionBoard.Settings
import DeductionBoard.Solver.Answer
import DeductionBoard.Solver.Cancellation
import DeductionBoard.Solver.Clause
import DeductionBoard.Solver.Command
import DeductionBoard.Solver.Dialogue
import DeductionBoard.Solver.External
import DeductionBoard.Solver.Ground
import DeductionBoard.Solver.Propositional
import DeductionBoard.Solver.Saturation
import DeductionBoard.Solver.Scripted
import DeductionBoard.Text.Blank
import DeductionBoard.Text.Numeral
import DeductionBoard.Text.Quoted
import DeductionBoard.Verify.Check
import DeductionBoard.Verify.Hint
import DeductionBoard.Verify.Solvability
import DeductionBoard.Verify.Verdict
import DeductionBoard.Version
import DeductionBoard.Main
import DeductionBoard.Proofs.Formula.Semantics
import DeductionBoard.Proofs.Board.Wiring
import DeductionBoard.Proofs.Board.Invariant
import DeductionBoard.Proofs.Board.Edits
import DeductionBoard.Proofs.Board.CheckingOrder
import DeductionBoard.Proofs.Derivation.Rules
import DeductionBoard.Proofs.Derivation.Table
import DeductionBoard.Proofs.Derivation.Incremental
import DeductionBoard.Proofs.Derivation.History
import DeductionBoard.Proofs.Board.History
import DeductionBoard.Proofs.Derivation.Soundness
import DeductionBoard.Proofs.Search.Names
import DeductionBoard.Proofs.Search.Backward
import DeductionBoard.Proofs.Derivation.Growth
import DeductionBoard.Proofs.Search.Additions
import DeductionBoard.Proofs.Search.Placement
import DeductionBoard.Proofs.Search.Soundness
import DeductionBoard.Proofs.Smt.Expression
import DeductionBoard.Proofs.Smt.Script
import DeductionBoard.Proofs.Query.Names
import DeductionBoard.Proofs.Query.Spelling
import DeductionBoard.Proofs.Query.Layout
import DeductionBoard.Proofs.Query.Resolution
import DeductionBoard.Proofs.Query.Faithful
import DeductionBoard.Proofs.Query.Witnesses
import DeductionBoard.Proofs.Query.Skolemization
import DeductionBoard.Proofs.Query.Header
import DeductionBoard.Proofs.Solver.Dialogue
import DeductionBoard.Proofs.Search.Example
import DeductionBoard.Proofs.Search.NextStep
import DeductionBoard.Proofs.Verify.Hint
import DeductionBoard.Proofs.Session.Operations
import DeductionBoard.Proofs.Session.History
import DeductionBoard.Proofs.Formula.Scanning
import DeductionBoard.Proofs.Formula.Reading
import DeductionBoard.Proofs.Formula.RoundTrip
import DeductionBoard.Proofs.Formula.Grammar
import DeductionBoard.Proofs.Formula.Extent
import DeductionBoard.Proofs.Level.Reading
import DeductionBoard.Proofs.Level.RoundTrip
import DeductionBoard.Proofs.Level.Admission
import DeductionBoard.Proofs.Verify.Countermodel
import DeductionBoard.Proofs.Verify.Progress
import DeductionBoard.Proofs.Session.Requests
import DeductionBoard.Proofs.Solver.Cancellation
import DeductionBoard.Proofs.Search.Limits
import DeductionBoard.Proofs.Search.Budget
import DeductionBoard.Proofs.Search.Cells
import DeductionBoard.Proofs.Search.Layout
import DeductionBoard.Proofs.Level.Room
import DeductionBoard.Proofs.Level.Budget
import DeductionBoard.Proofs.Formula.Occurrence
import DeductionBoard.Proofs.Formula.Substitution
import DeductionBoard.Proofs.Derivation.Assumptions
import DeductionBoard.Proofs.Derivation.Policy
import DeductionBoard.Proofs.Verify.Verdict
import DeductionBoard.Proofs.Theory.Scanning
import DeductionBoard.Proofs.Theory.Reading
import DeductionBoard.Proofs.Theory.Scoping
import DeductionBoard.Proofs.Theory.Validity
import DeductionBoard.Proofs.Board.Cycles
import DeductionBoard.Proofs.Board.Failures
import DeductionBoard.Proofs.Board.Revision
import DeductionBoard.Proofs.Session.Currency
import DeductionBoard.Proofs.Derivation.Strict
import DeductionBoard.Proofs.Derivation.Totality
import DeductionBoard.Proofs.Board.Schedule
import DeductionBoard.Proofs.Board.WiringOrder
import DeductionBoard.Proofs.Derivation.Renumbering
import DeductionBoard.Proofs.Derivation.Lines
import DeductionBoard.Proofs.Query.Consistency
import DeductionBoard.Proofs.Query.Quoting
import DeductionBoard.Proofs.Search.Bounds
import DeductionBoard.Proofs.Search.Completeness
import DeductionBoard.Proofs.Level.Solution
import DeductionBoard.Proofs.Level.Publication
import DeductionBoard.Proofs.Formula.Prefixes
import DeductionBoard.Proofs.Formula.Faults
import DeductionBoard.Proofs.Formula.Order
import DeductionBoard.Proofs.Board.Reachability
import DeductionBoard.Proofs.Formula.Tiling
import DeductionBoard.Proofs.Search.Listing
import DeductionBoard.Proofs.Solver.Ground
