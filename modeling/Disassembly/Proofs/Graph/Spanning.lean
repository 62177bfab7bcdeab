import Disassembly.Proofs.Graph.ImmediateDominators

/-!
# What the depth-first search spans

The search from a node of a graph ends with a numbering of exactly what the node reaches, in which every edge to a
greater number goes down the tree of the parents (`Digraph.depthFirst?_spans`).
-/

namespace Disassembly.Graph

namespace Digraph

/-- The search from a node of a graph ends. It takes a step for every node it enters and one for every edge from there,
which are the steps of all nodes less those of the nodes left out. The numbers it gives run from 0 without a gap, one to
a node; the nodes that have one are those that the root reaches, by walks as by the dominator tree. Every number but 0
was given from a smaller one with an edge to it, and a number with an edge to a greater one is an ancestor of that in
the tree that this makes. -/
theorem depthFirst?_spans (g : Digraph) (root : Nat) (hroot : root < g.size) :
    ∃ start steps finish n, Search.start? g root = some start ∧ start.Halts g steps finish ∧
      finish.toNumbering = n ∧ g.depthFirst? root = some n ∧
      steps + Search.unentered g n.number = g.size + g.edgeCount ∧
      (∀ x v : Nat, n.number[x]? = some (some v) ↔ n.vertex[v]? = some x) ∧
      (∀ v, (∃ x : Nat, n.number[x]? = some (some v)) ↔ v < n.count) ∧ n.number[root]? = some (some 0) ∧
      (∀ x : Nat, (∃ v, n.number[x]? = some (some v)) ↔ ∃ p, Walk g.Adj root x p) ∧
      (∀ x, (DominatorTree.compute g root).isReachable x = true ↔ ∃ v, n.number[x]? = some (some v)) ∧
      (∀ w : Nat, 0 < w → w < n.count → ∃ p, n.parent[w]? = some (some p) ∧ p < w ∧ n.Edge g p w) ∧
      ∀ v w, n.Edge g v w → v < w → Ancestor n.above v w := by
  obtain ⟨start, steps, finish, hstart, hhalts, hsteps, hfirst, h⟩ := exists_search hroot
  have hreach (x : Nat) : (∃ v, finish.number[x]? = some (some v)) ↔ ∃ p, Walk g.Adj root x p := by
    simp only [h.number_iff]
    exact h.exists_number_iff
  refine ⟨start, steps, finish, _, hstart, hhalts, rfl, hfirst, hsteps, fun x v => h.number_iff, fun v => ?_,
    h.number_iff.mpr h.root_eq, hreach, fun x => ?_, fun w h0 hw => ?_, fun v w => h.tree.forward⟩
  · simp only [h.number_iff]
    constructor
    · rintro ⟨x, hx⟩
      exact Numbering.lt_count hx
    · exact Numbering.exists_vertex
  · rw [DominatorTree.isReachable_compute_iff, and_iff_right hroot, hreach]
  · obtain ⟨p, hp⟩ := h.exists_above h0 hw
    exact ⟨p, Option.join_eq_some_iff.mp hp, h.above_edge hp⟩

/-- A graph with edges down the tree, back, across and forward, a successor that is no node, and a node out of reach. -/
def thicket : Digraph := ⟨#[[1, 3, 2, 9], [1, 2], [0], [2], [3, 0]]⟩

/-- The edge from 0 to 2 is looked at only after 2 was entered from 1, so that it goes down the tree past 1. -/
theorem depthFirst?_spans_thicket : ∃ start finish n, Search.start? thicket 0 = some start ∧
    start.Halts thicket 11 finish ∧ finish.toNumbering = n ∧ thicket.depthFirst? 0 = some n ∧
    n.above 2 = some 1 ∧ Ancestor n.above 0 2 ∧ ¬ ∃ p, Walk thicket.Adj 0 4 p := by
  obtain ⟨start, steps, finish, n, hstart, hhalts, hfinish, hn, hsteps, -, -, -, hreach, -, -, hforward⟩ :=
    depthFirst?_spans thicket 0 (by decide)
  have hrun : (thicket.depthFirst? 0).map (fun n => (n.number, n.vertex, n.parent)) =
      some (#[some 0, some 1, some 2, some 3, none], #[0, 1, 2, 3], #[none, some 0, some 1, some 0]) := by
    decide +kernel
  rw [hn, Option.map_some, Option.some.injEq, Prod.mk.injEq, Prod.mk.injEq] at hrun
  obtain ⟨hcells, hvertex, hparent⟩ := hrun
  have hunentered : Search.unentered thicket n.number = 3 := by
    rw [hcells]
    decide
  have hcount : thicket.size + thicket.edgeCount = 14 := by decide
  obtain rfl : steps = 11 := by omega
  refine ⟨start, finish, n, hstart, hhalts, hfinish, hn, by simp [Numbering.above, hparent], ?_, ?_⟩
  · exact hforward 0 2 ⟨0, 2, by simp [hvertex], by simp [hvertex], by decide⟩ (by decide)
  · rw [← hreach]
    simp [hcells]

end Digraph

end Disassembly.Graph
