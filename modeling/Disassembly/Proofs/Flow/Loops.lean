import Disassembly.Flow.Loops
import Disassembly.Proofs.Flow.Lookup
import Disassembly.Proofs.Graph.Dominators

/-!
# Back edges

The back edges of a function are those of its edges whose target block dominates their source block, told
by walks from the entry block along the edges that run between blocks (`backEdges_eq_filter`). Nothing is
asked of the edges: they may be in any order, repeated, or have an endpoint in no block.
-/

namespace Disassembly.Flow.Function

open Disassembly.Graph

variable {f : Function} {edge : Edge} {i j : Nat}

/-- Some edge runs from block `i` to block `j`. -/
def Flows (f : Function) (i j : Nat) : Prop :=
  ∃ edge ∈ f.edges, f.Finds edge.source i ∧ f.Finds edge.target j

/-- The edge closes a loop: from the block of the entry point its source is reached, and on every walk its
target comes before. -/
def IsBackEdge (f : Function) (edge : Edge) : Prop :=
  ∃ entry source target, f.Finds f.entry entry ∧ f.Finds edge.source source ∧
    f.Finds edge.target target ∧ Dominates f.Flows entry target source

namespace Sorted

variable (h : f.Sorted)

include h

theorem blockEdge?_eq_some_iff :
    f.blockEdge? edge = some (i, j) ↔ f.Finds edge.source i ∧ f.Finds edge.target j := by
  rw [← h.blockIndex?_eq_some_iff, ← h.blockIndex?_eq_some_iff]
  simp [blockEdge?, Option.bind_eq_some_iff]

/-- The graph of the blocks has the edges that run between blocks. -/
theorem adj_blockGraph : f.blockGraph.Adj = f.Flows := by
  funext i j
  refine propext ?_
  rw [blockGraph, Digraph.adj_ofEdges, List.mem_filterMap]
  constructor
  · rintro ⟨-, -, edge, hmem, hedge⟩
    exact ⟨edge, hmem, h.blockEdge?_eq_some_iff.mp hedge⟩
  · rintro ⟨edge, hmem, hi, hj⟩
    exact ⟨hi.lt_length, hj.lt_length, edge, hmem, h.blockEdge?_eq_some_iff.mpr ⟨hi, hj⟩⟩

/-- The test for back edges is right when the entry point lies in a block. -/
theorem any_dominates_iff {entry : Nat} (hentry : f.Finds f.entry entry) :
    ((f.blockEdge? edge).any fun (source, target) =>
      (DominatorTree.compute f.blockGraph entry).dominates target source) = true ↔
        f.IsBackEdge edge := by
  have hlt : entry < f.blockGraph.size := by
    rw [blockGraph, Digraph.size_ofEdges]
    exact hentry.lt_length
  obtain ⟨n, hn, htree⟩ := DominatorTree.exists_tells hlt
  rw [Option.any_eq_true]
  constructor
  · rintro ⟨⟨source, target⟩, hedge, hdom⟩
    obtain ⟨hsource, htarget⟩ := h.blockEdge?_eq_some_iff.mp hedge
    rw [htree.dominates_iff, h.adj_blockGraph] at hdom
    exact ⟨entry, source, target, hentry, hsource, htarget, hdom⟩
  · rintro ⟨entry', source, target, hentry', hsource, htarget, hdom⟩
    obtain rfl := hentry.unique hentry'
    refine ⟨(source, target), h.blockEdge?_eq_some_iff.mpr ⟨hsource, htarget⟩, ?_⟩
    rwa [htree.dominates_iff, h.adj_blockGraph]

end Sorted

open scoped Classical in
/-- The back edges are the edges that close a loop, as often and in the order in which they are stored;
without an entry block there are none. -/
theorem backEdges_eq_filter (h : f.Sorted) :
    f.backEdges = f.edges.filter (fun edge => decide (f.IsBackEdge edge)) ∧
      ((∀ i, ¬ f.Finds f.entry i) → f.backEdges = []) := by
  have heq : f.backEdges = f.edges.filter (fun edge => decide (f.IsBackEdge edge)) := by
    unfold backEdges
    cases hfound : f.blockIndex? f.entry with
    | none =>
      refine (List.filter_eq_nil_iff.mpr fun edge _ hback => ?_).symm
      obtain ⟨entry, -, -, hentry, -⟩ := of_decide_eq_true hback
      rw [h.blockIndex?_eq_some_iff.mpr hentry] at hfound
      cases hfound
    | some entry =>
      refine List.filter_congr fun edge _ => ?_
      have hentry := h.blockIndex?_eq_some_iff.mp hfound
      rw [Bool.eq_iff_iff, h.any_dominates_iff hentry, decide_eq_true_eq]
  refine ⟨heq, fun hnone => ?_⟩
  rw [heq, List.filter_eq_nil_iff]
  intro edge _ hback
  obtain ⟨entry, -, -, hentry, -⟩ := of_decide_eq_true hback
  exact hnone entry hentry

/-- A loop through blocks that overlap. Two of them start at the same address, edges leave and enter blocks
in their middle, one edge is repeated and one leads nowhere. -/
def overlapping : Function where
  entry := 0x108
  blocks := [{ start := 0x100, stop := 0x110 }, { start := 0x110, stop := 0x118 },
    { start := 0x110, stop := 0x124 }, { start := 0x120, stop := 0x130 }]
  edges := [⟨0x104, 0x11c, .unconditional⟩, ⟨0x11c, 0x110, .whenTrue⟩, ⟨0x11c, 0x122, .whenFalse⟩,
    ⟨0x12c, 0x500, .switch⟩, ⟨0x12c, 0x118, .switch⟩, ⟨0x12c, 0x118, .switch⟩]

open scoped Classical in
theorem backEdges_overlapping :
    overlapping.Sorted ∧
      overlapping.backEdges = overlapping.edges.filter (fun edge => decide (overlapping.IsBackEdge edge)) ∧
      overlapping.backEdges =
        [⟨0x11c, 0x110, .whenTrue⟩, ⟨0x12c, 0x118, .switch⟩, ⟨0x12c, 0x118, .switch⟩] :=
  ⟨by decide, (backEdges_eq_filter (by decide)).1, by decide +kernel⟩

end Disassembly.Flow.Function
