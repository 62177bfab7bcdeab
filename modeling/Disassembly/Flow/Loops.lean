import Disassembly.Flow.Function
import Disassembly.Graph.Dominators

/-!
# Loops

A back edge closes a loop: its target dominates its source in the graph of the blocks of a function.
Dominance is taken from the block that the entry point lies in, so that blocks which it does not
reach have no back edges.
-/

namespace Disassembly.Flow.Function

open Disassembly.Graph

/-- The places of the blocks that the endpoints of an edge lie in. -/
def blockEdge? (f : Function) (edge : Edge) : Option (Nat × Nat) := do
  return (← f.blockIndex? edge.source, ← f.blockIndex? edge.target)

/-- The graph of the blocks, by their places; edges with an endpoint in no block are left out. -/
def blockGraph (f : Function) : Digraph :=
  .ofEdges f.blocks.length (f.edges.filterMap f.blockEdge?)

/-- The edges whose target dominates their source, in the order of the edges. The blocks must be
sorted by start. -/
def backEdges (f : Function) : List Edge :=
  match f.blockIndex? f.entry with
  | none => []
  | some entry =>
    let tree := DominatorTree.compute f.blockGraph entry
    f.edges.filter fun edge =>
      (f.blockEdge? edge).any fun (source, target) => tree.dominates target source

end Disassembly.Flow.Function
