import CellScript.BoundedStack
import CellScript.Builtin.Apply
import CellScript.CodeBuffer
import CellScript.Compiler.Statement
import CellScript.Console
import CellScript.Digest
import CellScript.Limits
import CellScript.Listing
import CellScript.Machine.Step
import CellScript.Program
import CellScript.Report
import CellScript.SourceMap
import CellScript.Store
import CellScript.Proofs.Action
import CellScript.Proofs.ExpressionCode
import CellScript.Proofs.Outline
import CellScript.Proofs.CommandCode
import CellScript.Proofs.ProgramCode
import CellScript.Proofs.Names
import CellScript.Proofs.Traversal
import CellScript.Proofs.Layout
import CellScript.Proofs.Operands
import CellScript.Proofs.Points
import CellScript.Proofs.Execution
import CellScript.Proofs.References
import CellScript.Proofs.Activations
import CellScript.Proofs.Preservation
import CellScript.Proofs.Runs
import CellScript.Proofs.Regions
import CellScript.Proofs.WellFormed
import CellScript.Proofs.Permanence
import CellScript.Proofs.Parallel
import CellScript.Proofs.RoomierMachine
import CellScript.Proofs.RoomierCompiler
import CellScript.Proofs.Capacities
import CellScript.Proofs.Phrases
import CellScript.Proofs.Spellings
import CellScript.Proofs.Recognition
import CellScript.Proofs.Lexemes
import CellScript.Proofs.Unambiguity
import CellScript.Proofs.Readings
import CellScript.Proofs.Acceptance
import CellScript.Proofs.Precedence
import CellScript.Proofs.Frames
import CellScript.Proofs.Safety
import CellScript.Proofs.Isolation
import CellScript.Proofs.Meaning
import CellScript.Proofs.Simulation
import CellScript.Proofs.Outcomes
import CellScript.Proofs.Lockstep
import CellScript.Proofs.Lookup
import CellScript.Proofs.Blanks
import CellScript.Proofs.Turns
import CellScript.Proofs.Passages
import CellScript.Proofs.Edits
import CellScript.Proofs.Continued
import CellScript.Proofs.Parts
import CellScript.Proofs.Images
import CellScript.Proofs.Consoles
import CellScript.Proofs.Contents
import CellScript.Proofs.Agreement
import CellScript.Proofs.Nesting
import CellScript.Proofs.Clauses
import CellScript.Proofs.Naming
import CellScript.Proofs.Admission
import CellScript.Proofs.Fitting
import CellScript.Proofs.Tallies
import CellScript.Proofs.Balance
import CellScript.Proofs.Quotation
import CellScript.Proofs.Numerals
import CellScript.Proofs.Chains
import CellScript.Proofs.Interning
import CellScript.Proofs.Resolution
import CellScript.Proofs.Scripts
import CellScript.Proofs.Slots
import CellScript.Proofs.Rounding
import CellScript.Proofs.Patterns
import CellScript.Proofs.Narrowing
import CellScript.Proofs.Extracts
import CellScript.Proofs.Decoding
import CellScript.Proofs.Lines
import CellScript.Proofs.Backpatching
import CellScript.Proofs.Tiling
import CellScript.Proofs.Parcels
import CellScript.Proofs.Upkeep
import CellScript.Proofs.Depth
