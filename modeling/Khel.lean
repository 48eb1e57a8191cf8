import Khel.Assembly.Instr
import Khel.Assembly.Line
import Khel.Assembly.Program
import Khel.Assembly.StringPool
import Khel.Compile
import Khel.Compile.Event
import Khel.Diagnostic
import Khel.Error
import Khel.Ir.Basic
import Khel.Ir.Listing
import Khel.Ir.Lowering
import Khel.Ir.Lowering.Expr
import Khel.Ir.Lowering.Program
import Khel.Ir.Lowering.Stmt
import Khel.Machine.Frame
import Khel.Machine.Instr
import Khel.Machine.Latin
import Khel.Machine.Legal
import Khel.Machine.Listing
import Khel.Machine.Register
import Khel.Machine.Selection
import Khel.Machine.Symbol
import Khel.Naming.Loops
import Khel.Naming.Resolve
import Khel.Naming.Scope
import Khel.Program.Expr
import Khel.Program.Operator
import Khel.Program.Stmt
import Khel.Proofs.Analysis
import Khel.Proofs.Assembly.Exports
import Khel.Proofs.Assembly.Labels
import Khel.Proofs.Assembly.Pooled
import Khel.Proofs.Assembly.Reading
import Khel.Proofs.Assembly.Resolved
import Khel.Proofs.Assembly.Symbols
import Khel.Proofs.Compile
import Khel.Proofs.Ensures
import Khel.Proofs.Ir.CallArguments
import Khel.Proofs.Ir.Computes
import Khel.Proofs.Ir.FreshTemps
import Khel.Proofs.Ir.Initializers
import Khel.Proofs.Ir.Labels
import Khel.Proofs.Ir.Lowered
import Khel.Proofs.Ir.Minting
import Khel.Proofs.Ir.Paths
import Khel.Proofs.Ir.Points
import Khel.Proofs.Ir.ProgramLabels
import Khel.Proofs.Ir.RangeLoops
import Khel.Proofs.Ir.Runs
import Khel.Proofs.Ir.Semantics
import Khel.Proofs.Ir.Simulation
import Khel.Proofs.Ir.Statics
import Khel.Proofs.Ir.Temporaries
import Khel.Proofs.Ir.Temps
import Khel.Proofs.Ir.Typed
import Khel.Proofs.Ir.Widths
import Khel.Proofs.Ir.WrittenFirst
import Khel.Proofs.Machine.Arguments
import Khel.Proofs.Machine.CallSequence
import Khel.Proofs.Machine.Control
import Khel.Proofs.Machine.Encodable
import Khel.Proofs.Machine.Labels
import Khel.Proofs.Machine.Legalized
import Khel.Proofs.Machine.Memory
import Khel.Proofs.Machine.Narrow
import Khel.Proofs.Machine.Placed
import Khel.Proofs.Machine.Respelled
import Khel.Proofs.Machine.Selectable
import Khel.Proofs.Machine.Selected
import Khel.Proofs.Machine.Semantics
import Khel.Proofs.Machine.SlotLayout
import Khel.Proofs.Machine.Slots
import Khel.Proofs.Machine.Spelled
import Khel.Proofs.Machine.StackDepth
import Khel.Proofs.Machine.StackLevels
import Khel.Proofs.Machine.Words
import Khel.Proofs.Naming.Automatic
import Khel.Proofs.Naming.Distinct
import Khel.Proofs.Naming.Labelled
import Khel.Proofs.Naming.Lexical
import Khel.Proofs.Naming.Linked
import Khel.Proofs.Naming.Numbered
import Khel.Proofs.Naming.Resolved
import Khel.Proofs.Naming.Scoping
import Khel.Proofs.Naming.StrayJumps
import Khel.Proofs.Preservation
import Khel.Proofs.Program.Changed
import Khel.Proofs.Program.Checkable
import Khel.Proofs.Program.Declarations
import Khel.Proofs.Program.LoopBodies
import Khel.Proofs.Program.Names
import Khel.Proofs.Program.Readings
import Khel.Proofs.Program.Semantics
import Khel.Proofs.Program.Spans
import Khel.Proofs.Program.Storages
import Khel.Proofs.Renaming.Blind
import Khel.Proofs.Renaming.Checking
import Khel.Proofs.Renaming.Compiled
import Khel.Proofs.Renaming.Fixed
import Khel.Proofs.Renaming.Lowering
import Khel.Proofs.Renaming.Machine
import Khel.Proofs.Renaming.Mirrors
import Khel.Proofs.SourceText
import Khel.Proofs.Span
import Khel.Proofs.Text.Escapes
import Khel.Proofs.Text.Latin
import Khel.Proofs.Typing.Checked
import Khel.Proofs.Typing.CheckedLoops
import Khel.Proofs.Typing.CheckedStmt
import Khel.Proofs.Typing.Declared
import Khel.Proofs.Typing.Entered
import Khel.Proofs.Typing.Erasure
import Khel.Proofs.Typing.Exported
import Khel.Proofs.Typing.Faults
import Khel.Proofs.Typing.Merged
import Khel.Proofs.Typing.Prototypes
import Khel.Proofs.Typing.Rechecked
import Khel.Proofs.Typing.WellTyped
import Khel.SourceText
import Khel.Span
import Khel.Symbol
import Khel.Table
import Khel.Target
import Khel.Text.Latin
import Khel.Text.Visible
import Khel.Toolchain
import Khel.Ty
import Khel.Typing.Conversion
import Khel.Typing.Expr
import Khel.Typing.Program
import Khel.Typing.Stmt
