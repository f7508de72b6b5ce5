import SymbolicExecution.Analyzer.Summary
import SymbolicExecution.Config.File
import SymbolicExecution.Json.Config
import SymbolicExecution.Json.Fact
import SymbolicExecution.Json.Report
import SymbolicExecution.Json.Routine
import SymbolicExecution.Routine.Draft
import SymbolicExecution.Signal
import SymbolicExecution.Proofs.Exploration.Closure
import SymbolicExecution.Proofs.Datum
import SymbolicExecution.Proofs.Fact
import SymbolicExecution.Proofs.Branch
import SymbolicExecution.Proofs.Numbering
import SymbolicExecution.Proofs.Renaming.Correspondence
import SymbolicExecution.Proofs.Renaming.State
import SymbolicExecution.Proofs.Renaming.Evaluation
import SymbolicExecution.Proofs.Renaming.Rule
import SymbolicExecution.Proofs.Renaming.Branch
import SymbolicExecution.Proofs.Renaming.Expansion
import SymbolicExecution.Proofs.Machine
import SymbolicExecution.Proofs.Machine.Settled
import SymbolicExecution.Proofs.Derivation
import SymbolicExecution.Proofs.Model
import SymbolicExecution.Proofs.Model.State
import SymbolicExecution.Proofs.Model.Rule
import SymbolicExecution.Proofs.Exploration.Scope
import SymbolicExecution.Proofs.Exploration.Coverage
import SymbolicExecution.Proofs.Exploration.Move
import SymbolicExecution.Proofs.Exploration.Budget
import SymbolicExecution.Proofs.Exploration.Call
import SymbolicExecution.Proofs.Exploration.Extension
import SymbolicExecution.Proofs.Exploration.Faultless
import SymbolicExecution.Proofs.Storage
import SymbolicExecution.Proofs.Routine.Acyclic
import SymbolicExecution.Proofs.Exploration.Moment
import SymbolicExecution.Proofs.Exploration.Feasible
import SymbolicExecution.Proofs.Exploration.Cancellation
import SymbolicExecution.Proofs.Footprint.Receiver
import SymbolicExecution.Proofs.Exploration.Reporting
import SymbolicExecution.Proofs.Exploration.Origin
import SymbolicExecution.Proofs.Exploration.NullReceiver
import SymbolicExecution.Proofs.Routine.Acceptance
import SymbolicExecution.Proofs.Footprint.Result
import SymbolicExecution.Proofs.Footprint.Value
import SymbolicExecution.Proofs.Exploration.Operand
import SymbolicExecution.Proofs.Footprint.Call
import SymbolicExecution.Proofs.Footprint.Write
import SymbolicExecution.Proofs.Exploration.Field
import SymbolicExecution.Proofs.Footprint.Readback
import SymbolicExecution.Proofs.Footprint.Declaration
import SymbolicExecution.Proofs.Footprint.Invalidation
import SymbolicExecution.Proofs.Meaning
import SymbolicExecution.Proofs.Meaning.Rule
import SymbolicExecution.Proofs.Fact.Exact
import SymbolicExecution.Proofs.Fact.Order
import SymbolicExecution.Proofs.Storage.Resolution
import SymbolicExecution.Proofs.Footprint.Frame
import SymbolicExecution.Proofs.Interval.Comparison
import SymbolicExecution.Proofs.Fact.Repetition
import SymbolicExecution.Proofs.Branch.Shape
import SymbolicExecution.Proofs.Branch.Narrowing
import SymbolicExecution.Proofs.Branch.Pattern
import SymbolicExecution.Proofs.Boundary
import SymbolicExecution.Proofs.Chain
import SymbolicExecution.Proofs.Exploration.Chain
import SymbolicExecution.Proofs.Exploration.Wrapping
import SymbolicExecution.Proofs.Exploration.UselessIncrement
import SymbolicExecution.Proofs.Numbering.Ledger
import SymbolicExecution.Proofs.Exploration.FirstReport
import SymbolicExecution.Proofs.Routine.Draft
import SymbolicExecution.Proofs.Config
