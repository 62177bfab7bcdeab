import Disassembly.Graph.DepthFirst
import Disassembly.Graph.Forest

/-!
# Dominators

A node dominates another if every path from the root to the other passes through it. The algorithm
of Lengauer and Tarjan finds the immediate dominator of every node that the root reaches.

Vertices are named by their depth-first numbers. Going through them from the last to the first, the
semidominator of a vertex is found from its predecessors with the help of a forest that holds the
vertices already seen; the vertex then waits in the bucket of its semidominator until the path to it
is in the forest, when its immediate dominator is found either outright or as that of another
vertex. A last pass in ascending order puts in those that were left open.

A run reads and writes every cell with a check and fills the cell of a vertex only once, so that
`DominatorTree.compute?` having a result says that neither went wrong.
-/

namespace Disassembly.Graph

/-! ### Semidominators and relative dominators -/

/-- The state while vertices are seen, from the last to the first. -/
structure Progress where
  /-- The vertices seen, linked to their parents, with semidominators as values. -/
  forest : Forest
  /-- For each vertex those whose semidominator it is and that still wait. -/
  bucket : Array (List Nat)
  /-- For each vertex its immediate dominator or one with the same immediate dominator; none as long
  as it has not been found. -/
  relative : Array (Option Nat)

namespace Progress

/-- Before any vertex is seen. -/
def start (count : Nat) : Progress where
  forest := .singletons count
  bucket := Array.replicate count []
  relative := Array.replicate count none

/-- Lowers the semidominator of `w` to the best one offered by its predecessor `v`. -/
def lower? (w : Nat) (f : Forest) (v : Nat) : Option Forest := do
  let (u, f) ← f.eval? v
  let offered ← f.semi[u]?
  let own ← f.semi[w]?
  return { f with semi := ← write? f.semi w (min offered own) }

/-- Takes `v` out of the bucket of `p`: its immediate dominator is `p` unless a vertex between them
has a lower semidominator, in which case they share one. -/
def settle? (p : Nat) (s : Progress) (v : Nat) : Option Progress := do
  let (u, forest) ← s.forest.eval? v
  let shared := (← forest.semi[u]?) < (← forest.semi[v]?)
  return { s with forest, relative := ← fill? s.relative v (if shared then u else p) }

/-- Sees the vertex `w`: finds its semidominator, lets it wait there, links it to its parent, and
settles the vertices that waited for that. -/
def see? (parents : Array (Option Nat)) (predecessors : Array (List Nat)) (s : Progress)
    (w : Nat) : Option Progress := do
  let forest ← (← predecessors[w]?).foldlM (lower? w) s.forest
  let semi ← forest.semi[w]?
  let bucket ← write? s.bucket semi ((← s.bucket[semi]?) ++ [w])
  let p ← (← parents[w]?)
  let forest ← forest.link? p w
  let waiting ← bucket[p]?
  waiting.foldlM (settle? p) { s with forest, bucket := ← write? bucket p [] }

/-- Sees every vertex but the root, from the last to the first. -/
def finish? (numbering : Numbering) (edges : List (Nat × Nat)) : Option Progress :=
  let predecessors := (Digraph.ofEdges numbering.count (edges.map Prod.swap)).successors
  numbering.descendants.reverse.foldlM (see? numbering.parent predecessors) (start numbering.count)

end Progress

/-! ### Immediate dominators -/

/-- Replaces the relative dominator of `w` by its own unless it is the semidominator of `w`, in which
case it is the immediate dominator. -/
def complete? (semi : Array Nat) (dominator : Array (Option Nat)) (w : Nat) :
    Option (Array (Option Nat)) := do
  let d ← (← dominator[w]?)
  if d = (← semi[w]?) then return dominator
  else write? dominator w (some (← (← dominator[d]?)))

/-- The immediate dominator of every number but the root's, by number. -/
def Numbering.dominators? (numbering : Numbering) (g : Digraph) :
    Option (Array (Option Nat)) := do
  let progress ← Progress.finish? numbering (← numbering.edges? g)
  numbering.descendants.foldlM (complete? progress.forest.semi) progress.relative

/-- The immediate dominators of the nodes that a root reaches. -/
structure DominatorTree where
  /-- The root. -/
  root : Nat
  /-- The immediate dominator of each node; the root and nodes out of its reach have none. -/
  parent : Array (Option Nat)
  /-- Whether the root reaches each node. -/
  reached : Array Bool
  deriving Repr

namespace DominatorTree

/-- The tree of a root that reaches nothing. -/
def unreached (size root : Nat) : DominatorTree where
  root
  parent := Array.replicate size none
  reached := Array.replicate size false

/-- The tree with dominators given by number. -/
def ofNumbering? (root : Nat) (numbering : Numbering) (dominators : Array (Option Nat)) :
    Option DominatorTree := do
  let parent ← numbering.number.toList.mapM fun
    | none => some none
    | some w => do
      match ← dominators[w]? with
      | none => some none
      | some d => return some (← numbering.vertex[d]?)
  return { root, parent := parent.toArray, reached := numbering.number.map Option.isSome }

/-- The dominator tree of a graph from a root. If the root is no node it reaches nothing. -/
def compute? (g : Digraph) (root : Nat) : Option DominatorTree :=
  if root < g.size then do
    let numbering ← g.depthFirst? root
    ofNumbering? root numbering (← numbering.dominators? g)
  else some (unreached g.size root)

/-- The dominator tree of a graph from a root, which there always is. -/
def compute (g : Digraph) (root : Nat) : DominatorTree :=
  (compute? g root).getD (unreached g.size root)

/-- The immediate dominator of a node; the root and nodes out of its reach have none. -/
def immediateDominator? (tree : DominatorTree) (v : Nat) : Option Nat := tree.parent[v]?.join

/-- Whether the root reaches a node. -/
def isReachable (tree : DominatorTree) (v : Nat) : Bool := tree.reached[v]?.getD false

/-- The node `v`, its immediate dominator, and so on upwards, at most `fuel` nodes. -/
def chain (tree : DominatorTree) : (fuel : Nat) → (v : Nat) → List Nat
  | 0, _ => []
  | fuel + 1, v =>
    v :: match tree.immediateDominator? v with
      | none => []
      | some d => tree.chain fuel d

/-- The dominators of a node that the root reaches, from itself up to the root. -/
def dominators (tree : DominatorTree) (v : Nat) : List Nat := tree.chain tree.parent.size v

/-- Whether every path from the root to `v` passes through `d`, both being in its reach. -/
def dominates (tree : DominatorTree) (d v : Nat) : Bool :=
  tree.isReachable d && tree.isReachable v && (tree.dominators v).contains d

end DominatorTree

end Disassembly.Graph
