import Disassembly.Export.Counter
import Disassembly.Proofs.Graph.Ancestor
import Disassembly.Proofs.Graph.DepthFirstTree
import Disassembly.Proofs.Graph.Checked
import Disassembly.Proofs.Graph.Semidominator
import Disassembly.Proofs.Graph.DepthFirst
import Disassembly.Proofs.Graph.Forest
import Disassembly.Proofs.Graph.Progress
import Disassembly.Proofs.Flow.Lookup
import Disassembly.Proofs.Graph.Dominators
import Disassembly.Proofs.Graph.ImmediateDominators
import Disassembly.Proofs.Flow.Loops
import Disassembly.Proofs.Flow.Renaming
import Disassembly.Proofs.Flow.Edge
import Disassembly.Proofs.Flow.Finalize
import Disassembly.Proofs.Flow.AddressIndex
import Disassembly.Proofs.Flow.FunctionTable
import Disassembly.Proofs.Flow.Totals
import Disassembly.Proofs.Flow.Schedules
import Disassembly.Proofs.Flow.Repair
import Disassembly.Proofs.Flow.CanonicalForm
import Disassembly.Proofs.Flow.Nearest
import Disassembly.Proofs.Flow.Block
import Disassembly.Proofs.Flow.Growth
import Disassembly.Proofs.Flow.Extension
import Disassembly.Proofs.Flow.InstructionLookup
import Disassembly.Proofs.Flow.DisjointBlocks
import Disassembly.Proofs.Flow.KeptEdges
import Disassembly.Proofs.Flow.RepairedLoops
import Disassembly.Proofs.Expression.Signature
import Disassembly.Proofs.Expression.WellFormed
import Disassembly.Proofs.Expression.Reachable
import Disassembly.Proofs.Expression.Operand
import Disassembly.Proofs.Expression.Sharing
import Disassembly.Proofs.Expression.Numbering
import Disassembly.Proofs.Expression.Rollback
import Disassembly.Proofs.Expression.Renaming
import Disassembly.Proofs.Expression.Chains
import Disassembly.Proofs.Expression.Calls
import Disassembly.Proofs.Expression.Creation
import Disassembly.Proofs.Expression.Interning
import Disassembly.Proofs.Expression.Symbols
import Disassembly.Proofs.Text.Pool
import Disassembly.Proofs.Text.Sdbm
import Disassembly.Proofs.Attribution
import Disassembly.Proofs.Export.Lifting
import Disassembly.Proofs.Export.History
import Disassembly.Proofs.Export.Refusal
import Disassembly.Proofs.Export.Accepted
import Disassembly.Proofs.Export.Run
import Disassembly.Proofs.Export.Order
import Disassembly.Proofs.Export.Deferral
import Disassembly.Proofs.Export.Attribution
import Disassembly.Proofs.Export.DroppedEdges
import Disassembly.Proofs.Export.Balance
import Disassembly.Proofs.Export.Sessions
import Disassembly.Proofs.Export.RefusedRequests
import Disassembly.Proofs.Export.Places
import Disassembly.Proofs.Graph.ForestRuns
import Disassembly.Proofs.Graph.Course
import Disassembly.Proofs.Graph.Compression
import Disassembly.Proofs.Graph.Spanning
import Disassembly.Proofs.Graph.Bounds
import Disassembly.Proofs.ReadBack
