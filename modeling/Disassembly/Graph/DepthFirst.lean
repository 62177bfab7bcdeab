import Disassembly.Graph.Cell
import Disassembly.Graph.Digraph

/-!
# Depth-first numbering

The nodes that a root reaches, numbered from 0 in the order in which a depth-first search enters
them. The search keeps a stack of frames, one for each vertex on the path from the root, with the
neighbours of the vertex still to be looked at. A step looks at one neighbour of the topmost vertex
and enters it if it is new, or leaves a vertex that has none left. Each edge is looked at once and
each vertex left once, which bounds the number of steps.
-/

namespace Disassembly.Graph

/-- A numbering of the vertices that a search entered. -/
structure Numbering where
  /-- The number of each node of the graph; none if it was not entered. -/
  number : Array (Option Nat)
  /-- The node of each number. -/
  vertex : Array Nat := #[]
  /-- For each number that of the vertex from which it was entered; the root has none. -/
  parent : Array (Option Nat) := #[]

namespace Numbering

/-- How many vertices are numbered. -/
def count (numbering : Numbering) : Nat := numbering.vertex.size

/-- The numbers other than the root's, ascending. -/
def descendants (numbering : Numbering) : List Nat := List.range' 1 (numbering.count - 1)

/-- The edges between numbered vertices, by their numbers: those of vertex 0 first, and those of one
vertex in the order of its neighbours. -/
def edges? (numbering : Numbering) (g : Digraph) : Option (List (Nat × Nat)) := do
  let rows ← numbering.vertex.toList.zipIdx.mapM fun (node, v) => do
    let targets ← (g.neighbours node).mapM fun w => numbering.number[w]?
    return targets.filterMap fun target => target.map fun w => (v, w)
  return rows.flatten

end Numbering

/-- A vertex on the path of a search. -/
structure Frame where
  /-- Its number. -/
  number : Nat
  /-- Its neighbours still to be looked at. -/
  pending : List Nat

/-- A search under way. -/
structure Search extends Numbering where
  /-- The path from the root, its last vertex on top. -/
  stack : List Frame := []

namespace Search

variable (g : Digraph)

/-- Gives a node the next number and puts it on the path. -/
def enter? (s : Search) (parent : Option Nat) (node : Nat) : Option Search := do
  return {
    number := ← fill? s.number node s.count
    vertex := s.vertex.push node
    parent := s.parent.push parent
    stack := ⟨s.count, g.neighbours node⟩ :: s.stack }

/-- The search that has entered its root only. -/
def start? (root : Nat) : Option Search :=
  enter? g { number := Array.replicate g.size none } none root

/-- One step: look at the next neighbour of the topmost vertex, or leave it. -/
def step? (s : Search) : Option Search :=
  match s.stack with
  | [] => some s
  | ⟨_, []⟩ :: stack => some { s with stack }
  | ⟨v, w :: pending⟩ :: stack => do
    let s := { s with stack := ⟨v, pending⟩ :: stack }
    match ← s.number[w]? with
    | none => s.enter? g (some v) w
    | some _ => some s

/-- Steps until the path is empty, at most `fuel` of them. -/
def run? : (fuel : Nat) → Search → Option Search
  | 0, s => if s.stack.isEmpty then some s else none
  | fuel + 1, s => if s.stack.isEmpty then some s else s.step? g >>= run? fuel

end Search

/-- The numbering of the nodes that `root` reaches, in depth-first order. It is none only for a root
that is no node. -/
def Digraph.depthFirst? (g : Digraph) (root : Nat) : Option Numbering := do
  let s ← Search.start? g root
  return (← s.run? g (g.size + g.edgeCount)).toNumbering

end Disassembly.Graph
