import RegPressure.Advice.Report
import RegPressure.Advice.Verdict
import RegPressure.Asm.Grammar
import RegPressure.Asm.InstrGrammar
import RegPressure.Asm.Lexer
import RegPressure.Asm.Parser
import RegPressure.Asm.Printer
import RegPressure.Asm.SourceError
import RegPressure.Asm.Token
import RegPressure.Config.Basic
import RegPressure.Config.Load
import RegPressure.Config.Slot
import RegPressure.Diagnostic.Basic
import RegPressure.Diagnostic.Render
import RegPressure.Graph.Chain
import RegPressure.Graph.Digraph
import RegPressure.Graph.Dominance
import RegPressure.Hash.Blake2b
import RegPressure.IR.Fault
import RegPressure.IR.Fingerprint
import RegPressure.IR.Func
import RegPressure.IR.Instr
import RegPressure.IR.Op
import RegPressure.IR.Ty
import RegPressure.IR.WellFormed
import RegPressure.Liveness
import RegPressure.Locale.Message
import RegPressure.Main
import RegPressure.Memory.Alias
import RegPressure.Number.Binary64
import RegPressure.Number.Notation
import RegPressure.Number.Word
import RegPressure.Pass.Assumption
import RegPressure.Pass.Basic
import RegPressure.Pass.Narrow
import RegPressure.Pass.Pipeline
import RegPressure.Pass.Rename
import RegPressure.Proofs.Advice.Candidates
import RegPressure.Proofs.Advice.Confluence
import RegPressure.Proofs.Advice.Records
import RegPressure.Proofs.Advice.Relocation
import RegPressure.Proofs.Advice.Scan
import RegPressure.Proofs.Advice.Synchronising
import RegPressure.Proofs.Advice.Verdict
import RegPressure.Proofs.Advice.Veto
import RegPressure.Proofs.Asm.Accepted
import RegPressure.Proofs.Asm.Assembly
import RegPressure.Proofs.Asm.Body
import RegPressure.Proofs.Asm.Formed
import RegPressure.Proofs.Asm.Items
import RegPressure.Proofs.Asm.Lexeme
import RegPressure.Proofs.Asm.Operand
import RegPressure.Proofs.Asm.Pending
import RegPressure.Proofs.Asm.Positions
import RegPressure.Proofs.Asm.Progress
import RegPressure.Proofs.Asm.Reader
import RegPressure.Proofs.Asm.Resolved
import RegPressure.Proofs.Asm.Shape
import RegPressure.Proofs.Asm.Total
import RegPressure.Proofs.Config.Saved
import RegPressure.Proofs.Faultless.Accepted
import RegPressure.Proofs.Faultless.Advice
import RegPressure.Proofs.Faultless.Base
import RegPressure.Proofs.Faultless.Printing
import RegPressure.Proofs.Faultless.Ranges
import RegPressure.Proofs.Graph.Chain
import RegPressure.Proofs.Graph.Dominance
import RegPressure.Proofs.Graph.DominatorTree
import RegPressure.Proofs.Graph.Numbering
import RegPressure.Proofs.Graph.Partition
import RegPressure.Proofs.Graph.Passes
import RegPressure.Proofs.Graph.PostDominance
import RegPressure.Proofs.Graph.Region
import RegPressure.Proofs.Graph.Search
import RegPressure.Proofs.Graph.Walk
import RegPressure.Proofs.IR.Addition
import RegPressure.Proofs.IR.Arena
import RegPressure.Proofs.IR.Checked
import RegPressure.Proofs.IR.EdgeLists
import RegPressure.Proofs.IR.Fingerprint
import RegPressure.Proofs.IR.History
import RegPressure.Proofs.IR.Housed
import RegPressure.Proofs.IR.Intact
import RegPressure.Proofs.IR.Layout
import RegPressure.Proofs.IR.Names
import RegPressure.Proofs.IR.Placing
import RegPressure.Proofs.IR.Precedence
import RegPressure.Proofs.IR.Structure
import RegPressure.Proofs.IR.Update
import RegPressure.Proofs.IR.Users
import RegPressure.Proofs.IR.Verified
import RegPressure.Proofs.Liveness.Dominated
import RegPressure.Proofs.Liveness.Paths
import RegPressure.Proofs.Memory.Components
import RegPressure.Proofs.Memory.Escape
import RegPressure.Proofs.Memory.Offsets
import RegPressure.Proofs.Memory.Overlap
import RegPressure.Proofs.Memory.Symmetry
import RegPressure.Proofs.Narrow.Candidate
import RegPressure.Proofs.Narrow.Casts
import RegPressure.Proofs.Narrow.Convert
import RegPressure.Proofs.Narrow.Faultless
import RegPressure.Proofs.Narrow.Fixpoint
import RegPressure.Proofs.Narrow.Form
import RegPressure.Proofs.Narrow.Intact
import RegPressure.Proofs.Narrow.LowBits
import RegPressure.Proofs.Narrow.Markers
import RegPressure.Proofs.Narrow.Meaning
import RegPressure.Proofs.Narrow.Names
import RegPressure.Proofs.Narrow.Replace
import RegPressure.Proofs.Narrow.Resize
import RegPressure.Proofs.Narrow.Supplied
import RegPressure.Proofs.Narrow.Twin
import RegPressure.Proofs.Narrow.Words
import RegPressure.Proofs.Number.Shortest
import RegPressure.Proofs.Number.Texts
import RegPressure.Proofs.Pass.Assumptions
import RegPressure.Proofs.Pass.Concurrent
import RegPressure.Proofs.Pass.Pipeline
import RegPressure.Proofs.Pass.Renaming
import RegPressure.Proofs.Pass.Schedule
import RegPressure.Proofs.Pass.Slots
import RegPressure.Proofs.Pass.Unchanged
import RegPressure.Proofs.Pass.Upkeep
import RegPressure.Proofs.Roundtrip.Functions
import RegPressure.Proofs.Roundtrip.Instructions
import RegPressure.Proofs.Roundtrip.Lexing
import RegPressure.Proofs.Roundtrip.Modules
import RegPressure.Proofs.Roundtrip.Operands
import RegPressure.Proofs.Roundtrip.Quoting
import RegPressure.Proofs.Roundtrip.Types
import RegPressure.Proofs.Roundtrip.ValueNames
import RegPressure.Proofs.Run.Available
import RegPressure.Proofs.Run.Equations
import RegPressure.Proofs.Run.Step
import RegPressure.Proofs.Run.Traces
import RegPressure.Proofs.Run.Typing
import RegPressure.Proofs.Run.Values
import RegPressure.Proofs.Ssa.AccessTags
import RegPressure.Proofs.Ssa.Drafts
import RegPressure.Proofs.Ssa.ForwardReferences
import RegPressure.Proofs.Ssa.Outline
import RegPressure.Proofs.Ssa.Shifts
import RegPressure.Proofs.Text.Parts
import RegPressure.Proofs.Text.Quotes
import RegPressure.Proofs.Text.Runes
import RegPressure.Proofs.Toml.Lines
import RegPressure.Proofs.Toml.Values
import RegPressure.Proofs.ValueRange.Assumed
import RegPressure.Proofs.ValueRange.Bearing
import RegPressure.Proofs.ValueRange.Constants
import RegPressure.Proofs.ValueRange.Depth
import RegPressure.Proofs.ValueRange.Facts
import RegPressure.Proofs.ValueRange.History
import RegPressure.Proofs.ValueRange.Interval
import RegPressure.Proofs.ValueRange.LeastWidth
import RegPressure.Proofs.ValueRange.Remembered
import RegPressure.Proofs.ValueRange.Soundness
import RegPressure.Proofs.ValueRange.Stated
import RegPressure.Proofs.ValueRange.Transfer
import RegPressure.Report.Document
import RegPressure.Report.Dot
import RegPressure.Ssa.Instruction
import RegPressure.Ssa.Listing
import RegPressure.Ssa.Lowering
import RegPressure.Ssa.Package
import RegPressure.Ssa.Program
import RegPressure.Ssa.Select
import RegPressure.Ssa.SourceTy
import RegPressure.Text.Bytes
import RegPressure.Text.Json
import RegPressure.Text.Path
import RegPressure.Text.Printable
import RegPressure.Text.Quoted
import RegPressure.Text.Url
import RegPressure.Toml.KeyTable
import RegPressure.Toml.Reader
import RegPressure.Toml.Value
import RegPressure.Tool.Command
import RegPressure.Tool.FileSystem
import RegPressure.Tool.Flag
import RegPressure.Tool.GraphViewer
import RegPressure.Tool.Help
import RegPressure.Tool.Logging
import RegPressure.Tool.Session
import RegPressure.ValueRange.Analysis
import RegPressure.ValueRange.Interval
