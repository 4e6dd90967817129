import Isel.Assoc
import Isel.Digest.XXH64
import Isel.Fault
import Isel.Flow.Dot
import Isel.Flow.Encode
import Isel.Flow.Graph
import Isel.Flow.Image
import Isel.Flow.Instr
import Isel.Flow.Listing
import Isel.Flow.Module
import Isel.Flow.Reach
import Isel.Il.Data
import Isel.Il.Line
import Isel.Il.OfModule
import Isel.Il.Render
import Isel.Machine.Opcode
import Isel.Machine.Stream
import Isel.Machine.Word
import Isel.Proofs.Agreement
import Isel.Proofs.Allotment
import Isel.Proofs.Assignment
import Isel.Proofs.Balance
import Isel.Proofs.BlockNumbers
import Isel.Proofs.ByName
import Isel.Proofs.Calls
import Isel.Proofs.Coherence
import Isel.Proofs.Confinement
import Isel.Proofs.Construction
import Isel.Proofs.Control
import Isel.Proofs.DataItems
import Isel.Proofs.Determined
import Isel.Proofs.Edges
import Isel.Proofs.Emission
import Isel.Proofs.Encodable
import Isel.Proofs.EqualWords
import Isel.Proofs.Evaluation
import Isel.Proofs.Excerpt
import Isel.Proofs.Execution
import Isel.Proofs.Flags
import Isel.Proofs.ForwardCalls
import Isel.Proofs.Grammar
import Isel.Proofs.Image
import Isel.Proofs.InStep
import Isel.Proofs.Interning
import Isel.Proofs.Kinds
import Isel.Proofs.Laid
import Isel.Proofs.Layout
import Isel.Proofs.Lexical
import Isel.Proofs.Links
import Isel.Proofs.Listed
import Isel.Proofs.LiveBlocks
import Isel.Proofs.Numbering
import Isel.Proofs.Operands
import Isel.Proofs.Outcome
import Isel.Proofs.Packing
import Isel.Proofs.Preservation
import Isel.Proofs.Profiles
import Isel.Proofs.ProgramInStep
import Isel.Proofs.ProgramLayout
import Isel.Proofs.Progress
import Isel.Proofs.Quotation
import Isel.Proofs.Reachable
import Isel.Proofs.Readiness
import Isel.Proofs.Regular
import Isel.Proofs.RenamedSelection
import Isel.Proofs.Renaming
import Isel.Proofs.RoundTrip
import Isel.Proofs.Routing
import Isel.Proofs.Scoping
import Isel.Proofs.Sections
import Isel.Proofs.SharedLiterals
import Isel.Proofs.SingleAssignment
import Isel.Proofs.StmtLayout
import Isel.Proofs.Stops
import Isel.Proofs.Successors
import Isel.Proofs.Switching
import Isel.Proofs.Symbols
import Isel.Proofs.Temporaries
import Isel.Proofs.Translatable
import Isel.Proofs.Translation
import Isel.Proofs.Tree
import Isel.Proofs.WellFormed
import Isel.Proofs.Writing
import Isel.Proofs.Written
import Isel.Scope.Bindings
import Isel.Scope.Resolve
import Isel.Scope.Table
import Isel.Select.Cause
import Isel.Select.Expr
import Isel.Select.Hooks
import Isel.Select.Operator
import Isel.Select.Program
import Isel.Select.Slots
import Isel.Select.State
import Isel.Select.Stmt
import Isel.Settings.Config
import Isel.Settings.Feature
import Isel.Settings.Flag
import Isel.Settings.Switches
import Isel.Settings.Warning
import Isel.Source.Position
import Isel.Source.Report
import Isel.Syntax.Builder
import Isel.Syntax.Kind
import Isel.Syntax.Node
import Isel.Syntax.Token
import Isel.Syntax.Walk
import Isel.Text.Blank
import Isel.Text.Hex
import Isel.Text.Printable
import Isel.Text.Quoted
import Isel.Text.Utf8
